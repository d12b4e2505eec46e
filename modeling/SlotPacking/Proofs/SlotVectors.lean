import SlotPacking.Proofs.Outcome
import SlotPacking.SlotVector
import Mathlib.Data.Int.ModEq
import Mathlib.Algebra.Ring.Defs

/-!
Slot vectors read as functions on all indices, zero outside. Rotations compose
by adding their steps, and a vector filled by writes holds the last write to
each slot.
-/
namespace SlotPacking.SlotVector
variable {α : Type} {n : Nat}

section Source

theorem source_natCast (n i k : Nat) : source n i (k : Int) = (i + k) % n := by
  rw [source, ← Int.natCast_add, ← Int.natCast_emod, Int.toNat_natCast]

theorem source_congr {n i j : Nat} {k l : Int} (h : (i + k) % n = (j + l) % n) :
    source n i k = source n j l := by
  unfold source; rw [h]

@[simp] theorem source_zero {n i : Nat} (h : i < n) : source n i 0 = i := by
  rw [show (0 : Int) = ((0 : Nat) : Int) from rfl, source_natCast, Nat.add_zero, Nat.mod_eq_of_lt h]

theorem natCast_source {n : Nat} (h : 0 < n) (i : Nat) (k : Int) :
    (source n i k : Int) = (i + k) % n :=
  Int.toNat_of_nonneg (Int.emod_nonneg _ (by omega))

theorem source_source {n : Nat} (h : 0 < n) (i : Nat) (k l : Int) :
    source n (source n i k) l = source n i (k + l) := by
  apply source_congr
  rw [natCast_source h, Int.emod_add_emod, Int.add_assoc]

end Source

/-- Rotations one after another rotate by the sum of their steps. -/
theorem rotate_rotate (v : SlotVector α n) (k l : Int) :
    (v.rotate k).rotate l = v.rotate (k + l) := by
  ext i hi
  have same : source n (source n i l) k = source n i (k + l) := by
    rw [source_source (by omega), Int.add_comm]
  rw [getElem_rotate, getElem_rotate, getElem_rotate]
  simp only [same]

theorem rotate_zero (v : SlotVector α n) : v.rotate 0 = v := by
  ext i hi
  rw [getElem_rotate]
  simp only [source_zero hi]

/-- A rotation against a step undoes the rotation by it. -/
theorem rotate_neg_rotate (v : SlotVector α n) (k : Int) : (v.rotate (-k)).rotate k = v := by
  rw [rotate_rotate, Int.add_left_neg, rotate_zero]

section Slot
variable [Zero α]

/-- The entry of a slot, zero outside the vector. -/
def slot (v : SlotVector α n) (i : Nat) : α := if h : i < n then v[i] else 0

theorem slot_of_lt (v : SlotVector α n) {i : Nat} (h : i < n) : v.slot i = v[i] := dif_pos h

theorem slot_of_ge (v : SlotVector α n) {i : Nat} (h : n ≤ i) : v.slot i = 0 :=
  dif_neg (Nat.not_lt.mpr h)

@[simp] theorem slot_zero (i : Nat) : (0 : SlotVector α n).slot i = 0 := by
  by_cases h : i < n
  · rw [slot_of_lt _ h, getElem_zero]
  · exact slot_of_ge _ (by omega)

theorem slot_rotate (v : SlotVector α n) (k : Int) {i : Nat} (h : i < n) :
    (v.rotate k).slot i = v.slot (source n i k) := by
  rw [slot_of_lt _ h, slot_of_lt _ (source_lt (by omega) i k), getElem_rotate]

end Slot

theorem slot_add [AddZeroClass α] (u v : SlotVector α n) (i : Nat) :
    (u + v).slot i = u.slot i + v.slot i := by
  by_cases h : i < n
  · simp only [slot_of_lt _ h, getElem_add]
  · simp only [slot_of_ge _ (Nat.le_of_not_lt h), add_zero]

theorem slot_mul [MulZeroClass α] (u v : SlotVector α n) (i : Nat) :
    (u * v).slot i = u.slot i * v.slot i := by
  by_cases h : i < n
  · simp only [slot_of_lt _ h, getElem_mul]
  · simp only [slot_of_ge _ (Nat.le_of_not_lt h), mul_zero]

section Scatter
variable [Zero α]

theorem set_eq_ok {v u : SlotVector α n} {j : Nat} {x : α} (h : v.set j x = .ok u) (i : Nat) :
    u.slot i = if j = i then x else v.slot i := by
  unfold set at h
  split at h
  next hj =>
    obtain rfl := Except.ok.inj h
    by_cases hi : i < n
    · rw [slot_of_lt _ hi, slot_of_lt _ hi]
      exact Vector.getElem_set hj hi
    · rw [slot_of_ge _ (by omega), slot_of_ge _ (by omega), if_neg (by omega)]
  next => simp at h

theorem scatter_succeeds {writes : List (Nat × α)} (h : ∀ w ∈ writes, w.1 < n) :
    ∃ v : SlotVector α n, scatter writes = .ok v := by
  have step (w : Nat × α) (hw : w ∈ writes) (v : SlotVector α n) (_ : True) :
      ∃ u, v.set w.1 w.2 = .ok u ∧ True := ⟨_, dif_pos (h w hw), trivial⟩
  obtain ⟨v, hv, -⟩ := Result.foldlM_succeeds (fun _ => True) step trivial
  exact ⟨v, hv⟩

/-- A slot holds the value last written to it. -/
theorem scatter_slot {writes : List (Nat × α)} {v : SlotVector α n}
    (h : scatter writes = .ok v) (i : Nat) :
    v.slot i = ((Result.lastHit (fun w => w.1 == i) writes).map (·.2)).getD 0 := by
  have := Result.foldlM_observed (fun _ => True) (slot · i) (fun w => w.1 == i) (·.2)
    (fun w _ s t _ ht => ⟨trivial, by simpa using set_eq_ok ht i⟩) trivial h
  rw [this, slot_zero]

theorem scatter_slot_of_mem {writes : List (Nat × α)} {v : SlotVector α n}
    (h : scatter writes = .ok v) {i : Nat} {x : α} (hm : (i, x) ∈ writes)
    (unique : ∀ w ∈ writes, w.1 = i → w.2 = x) : v.slot i = x := by
  rw [scatter_slot h, Result.lastHit_map hm (by simp) (by simpa using unique), Option.getD_some]

theorem scatter_slot_of_not_mem {writes : List (Nat × α)} {v : SlotVector α n}
    (h : scatter writes = .ok v) {i : Nat} (hm : ∀ w ∈ writes, w.1 ≠ i) : v.slot i = 0 := by
  rw [scatter_slot h, Result.lastHit_eq_none (by simpa using hm), Option.map_none,
    Option.getD_none]

end Scatter
end SlotPacking.SlotVector
