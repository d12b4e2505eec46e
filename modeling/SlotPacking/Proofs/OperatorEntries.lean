import SlotPacking.Diagonal.Operator
import SlotPacking.Proofs.MatrixEntries
import SlotPacking.Proofs.SlotVectors

/-!
Operators filled from placements, read slot by slot. A kept placement writes one
slot of one diagonal and leaves all others alone, so a slot holds the weight of
the last placement for it.
-/
namespace SlotPacking
open Result SlotVector

theorem lane_mod (l : Nat) : laneStride * l % laneStride = 0 := Nat.mul_mod_right _ _

theorem lane_div (l : Nat) : laneStride * l / laneStride = l :=
  Nat.mul_div_cancel_left l (by decide)

theorem lane_of_mod {k : Nat} (h : k % laneStride = 0) : laneStride * (k / laneStride) = k :=
  Nat.mul_div_cancel' (Nat.dvd_of_mod_eq_zero h)

theorem lane_lt {l : Nat} (hl : l < slotCount / laneStride) : laneStride * l < slotCount := by
  unfold laneStride slotCount at *
  omega

namespace DiagonalOperator
variable {α : Type} {n : Nat} [Zero α]

/-- The weight in a slot of a diagonal, zero outside the operator. -/
def coeff (op : DiagonalOperator α n) (d k : Nat) : α := (op.toList.getD d 0).slot k

omit [Zero α] in
@[simp] theorem count_write (op : DiagonalOperator α n) (d s : Nat) (x : α) :
    (op.write d s x).count = op.count := by
  simp [count, write]

theorem zero_eq_ok {size : Nat} {op : DiagonalOperator α n} (h : zero size = .ok op) :
    Room n size ∧ op.count = size ∧ ∀ d k, op.coeff d k = 0 := by
  unfold zero at h
  split at h
  next room =>
    obtain rfl := Except.ok.inj h
    refine ⟨room, Array.size_replicate, fun d k => ?_⟩
    unfold coeff toList
    rw [Array.toList_replicate, List.getD_eq_getElem?_getD, List.getElem?_replicate]
    split
    · exact slot_zero k
    · exact slot_zero k
  next => cases h

theorem coeff_write {op : DiagonalOperator α n} {d s : Nat} (x : α) (hd : d < op.count)
    (hs : s < n) (e k : Nat) :
    (op.write d s x).coeff e k = if d = e ∧ s = k then x else op.coeff e k := by
  have hv : op.diagonals.toList[d]? = some op.diagonals[d] := by
    simp [Array.getElem?_eq_getElem hd]
  simp only [coeff, toList, write, Array.toList_modify, List.getD_eq_getElem?_getD,
    List.getElem?_modify]
  by_cases hde : d = e
  · subst hde
    simp only [if_pos, true_and, hv, Option.getD_some]
    by_cases hk : k < n
    · rw [slot_of_lt _ hk, slot_of_lt _ hk]
      exact Vector.getElem_setIfInBounds hk
    · rw [slot_of_ge _ (by omega), slot_of_ge _ (by omega), if_neg (by omega)]
  · simp [hde]

section Place
variable {weights : Matrix α} {op new : DiagonalOperator α n} {p : Placement}

theorem place_eq_ok (h : place weights op p = .ok new) :
    new.count = op.count ∧ ∀ e < op.count, ∀ k < n, new.coeff e k =
      if p.diagonal = e ∧ p.slot = k then weights.entry p.row p.col else op.coeff e k := by
  unfold place at h
  split at h
  next hp =>
    obtain ⟨w, hw, h⟩ := bind_eq_ok.mp h
    obtain rfl := Except.ok.inj h
    rw [Matrix.get_eq_ok] at hw
    exact ⟨count_write op _ _ w, fun e _ k _ => by rw [coeff_write w hp.1 hp.2, hw.2]⟩
  next hp =>
    obtain rfl := Except.ok.inj h
    refine ⟨rfl, fun e he k hk => (if_neg ?_).symm⟩
    rintro ⟨rfl, rfl⟩
    exact hp ⟨he, hk⟩

theorem place_succeeds (hp : p.diagonal < op.count → p.slot < n →
    p.row < weights.rows ∧ p.col < weights.cols) : ∃ new, place weights op p = .ok new := by
  unfold place
  split
  next h =>
    obtain ⟨hr, hc⟩ := hp h.1 h.2
    exact ⟨_, by rw [Matrix.get_of_lt _ hr hc, ok_bind]; rfl⟩
  next => exact ⟨op, rfl⟩

end Place

section OfPlacements
variable {weights : Matrix α} {op : DiagonalOperator α n} {size : Nat} {ps : List Placement}

/-- An operator depends only on the weights that its placements name. -/
theorem ofPlacements_congr {weights' : Matrix α}
    (h : ∀ p ∈ ps, weights'.get p.row p.col = weights.get p.row p.col) :
    (ofPlacements size ps weights' : Result (DiagonalOperator α n)) =
      ofPlacements size ps weights := by
  refine bind_congr fun empty => foldlM_congr fun p hp op => ?_
  rw [place, place, h p hp]

theorem ofPlacements_of_not_room (h : ¬Room n size) :
    (ofPlacements size ps weights : Result (DiagonalOperator α n)) = faulty .capacity := by
  rw [ofPlacements, zero, dif_neg h]
  rfl

/-- Filling starts from an operator of zeros. -/
theorem ofPlacements_of_room (room : Room n size) : ∃ empty : DiagonalOperator α n,
    empty.count = size ∧ (∀ d k, empty.coeff d k = 0) ∧
      ∀ (ps : List Placement) (weights : Matrix α),
        ofPlacements size ps weights = ps.foldlM (place weights) empty := by
  obtain ⟨empty, hempty⟩ : ∃ empty : DiagonalOperator α n, zero size = .ok empty :=
    ⟨_, dif_pos room⟩
  obtain ⟨-, hcount, hcoeff⟩ := zero_eq_ok hempty
  refine ⟨empty, hcount, hcoeff, fun ps weights => ?_⟩
  rw [ofPlacements, hempty, ok_bind]

theorem ofPlacements_room (h : ofPlacements size ps weights = .ok op) : Room n size := by
  by_contra room
  rw [ofPlacements_of_not_room room] at h
  cases h

theorem ofPlacements_succeeds (room : Room n size) (h : ∀ p ∈ ps, p.diagonal < size → p.slot < n →
    p.row < weights.rows ∧ p.col < weights.cols) :
    ∃ op : DiagonalOperator α n, ofPlacements size ps weights = .ok op := by
  have step : ∀ p ∈ ps, ∀ op : DiagonalOperator α n, op.count = size →
      ∃ new, place weights op p = .ok new ∧ new.count = size := by
    intro p hp op hc
    obtain ⟨new, hnew⟩ := place_succeeds fun hd => h p hp (hc ▸ hd)
    exact ⟨new, hnew, (place_eq_ok hnew).1.trans hc⟩
  obtain ⟨empty, hcount, -, fills⟩ := ofPlacements_of_room (α := α) room
  obtain ⟨op, hop, -⟩ := foldlM_succeeds (fun op : DiagonalOperator α n => op.count = size) step
    hcount
  exact ⟨op, (fills ps weights).trans hop⟩

theorem ofPlacements_count (h : ofPlacements size ps weights = .ok op) : op.count = size := by
  obtain ⟨empty, hcount, -, fills⟩ := ofPlacements_of_room (α := α) (ofPlacements_room h)
  rw [fills] at h
  exact foldlM_keeps (fun op : DiagonalOperator α n => op.count = size)
    (fun _ _ _ _ hs ht => (place_eq_ok ht).1.trans hs) hcount h

/-- A slot holds the weight of the last placement for it. -/
theorem ofPlacements_coeff (h : ofPlacements size ps weights = .ok op) {d k : Nat}
    (hd : d < size) (hk : k < n) : op.coeff d k =
      ((lastHit (fun p => p.diagonal == d && p.slot == k) ps).map
        fun p => weights.entry p.row p.col).getD 0 := by
  obtain ⟨empty, hcount, hzero, fills⟩ := ofPlacements_of_room (α := α) (ofPlacements_room h)
  rw [fills] at h
  rw [foldlM_observed (fun op : DiagonalOperator α n => op.count = size) (·.coeff d k)
    (fun p => p.diagonal == d && p.slot == k) (fun p => weights.entry p.row p.col) ?_
    hcount h, hzero]
  intro p _ s t hs ht
  obtain ⟨hc, hv⟩ := place_eq_ok ht
  refine ⟨hc.trans hs, ?_⟩
  rw [hv d (hs ▸ hd) k hk]
  simp

theorem ofPlacements_coeff_of_mem (h : ofPlacements size ps weights = .ok op) {p : Placement}
    (hp : p ∈ ps) (hd : p.diagonal < size) (hk : p.slot < n)
    (unique : ∀ q ∈ ps, q.diagonal = p.diagonal → q.slot = p.slot → q = p) :
    op.coeff p.diagonal p.slot = weights.entry p.row p.col := by
  rw [ofPlacements_coeff h hd hk, lastHit_map hp (by simp), Option.getD_some]
  intro q hq hit
  simp only [Bool.and_eq_true, beq_iff_eq] at hit
  rw [unique q hq hit.1 hit.2]

theorem ofPlacements_coeff_of_not_mem (h : ofPlacements size ps weights = .ok op) {d k : Nat}
    (hd : d < size) (hk : k < n) (none : ∀ p ∈ ps, p.diagonal = d → p.slot ≠ k) :
    op.coeff d k = 0 := by
  rw [ofPlacements_coeff h hd hk, lastHit_eq_none, Option.map_none, Option.getD_none]
  intro p hp
  simpa using none p hp

end OfPlacements

section Lanes
variable {weights : Matrix α} {op : DiagonalOperator α n} {size diagonals lanes : Nat}
  {ps : List Placement} {kept : Nat → Nat → Prop} [∀ d l, Decidable (kept d l)]
  {row col : Nat → Nat → Nat}

/-- An operator filled lane by lane holds, in every lane of a diagonal that is kept, the weight
placed there, and zero elsewhere. -/
theorem ofPlacements_coeff_lanes (hps : ∀ p, p ∈ ps ↔ ∃ d < diagonals, ∃ l < lanes, kept d l ∧
      p = ⟨d, laneStride * l, row d l, col d l⟩)
    (h : ofPlacements size ps weights = .ok op) {d k : Nat} (hd : d < size) (hk : k < n) :
    op.coeff d k = if d < diagonals ∧ k % laneStride = 0 ∧ k / laneStride < lanes ∧
        kept d (k / laneStride) then
      weights.entry (row d (k / laneStride)) (col d (k / laneStride)) else 0 := by
  split
  next hc =>
    obtain ⟨hdiag, h0, hl, hkept⟩ := hc
    have hmem := (hps _).mpr ⟨d, hdiag, _, hl, hkept, rfl⟩
    rw [lane_of_mod h0] at hmem
    apply ofPlacements_coeff_of_mem h hmem hd hk
    intro q hq hqd hqs
    obtain ⟨e, _, l, _, _, rfl⟩ := (hps q).mp hq
    obtain rfl : e = d := hqd
    have hlk : laneStride * l = k := hqs
    rw [← hlk, lane_div]
  next hc =>
    apply ofPlacements_coeff_of_not_mem h hd hk
    intro q hq hqd hqs
    obtain ⟨e, he, l, hl, hkept, rfl⟩ := (hps q).mp hq
    obtain rfl : e = d := hqd
    obtain rfl : laneStride * l = k := hqs
    rw [lane_mod, lane_div] at hc
    exact hc ⟨he, rfl, hl, hkept⟩

end Lanes
end DiagonalOperator
end SlotPacking
