import SlotPacking.Circuit
import SlotPacking.Proofs.CyclicSum
import SlotPacking.Proofs.OperatorEntries
import Mathlib.Algebra.BigOperators.Fin
import Mathlib.Algebra.Ring.Basic

/-!
The circuit as a sum. The rotation of a weight against its giantstep and the
rotation of its row's sum by it cancel on the weight and add up on the input, so
the circuit gives the sum of all diagonals times rotated inputs.
-/
namespace SlotPacking
open Finset SlotVector
open scoped BigOperators
variable {n : Nat}

namespace Circuit

theorem weightRows_eq_ofFn {α : Type} (width : Nat) (giantsteps : List Int)
    (diagonals : List (SlotVector α n)) :
    weightRows width giantsteps diagonals = List.ofFn fun g : Fin giantsteps.length =>
      (giantsteps[g],
        ((diagonals.drop (g * width)).take width).map (·.rotate (-giantsteps[g]))) := by
  induction giantsteps generalizing diagonals with
  | nil => rfl
  | cons gs rest ih =>
    simp only [weightRows, ih, List.length_cons, List.ofFn_succ, List.drop_drop]
    simp [Nat.succ_mul, Nat.add_comm]

variable {R : Type} [CommRing R]

theorem foldl_add_slot {β : Type} (l : List β) (f : β → SlotVector R n) (start : SlotVector R n)
    (k : Nat) : (l.foldl (fun sum b => sum + f b) start).slot k =
      start.slot k + (l.map fun b => (f b).slot k).sum := by
  induction l generalizing start with
  | nil => simp
  | cons b l ih => rw [List.foldl_cons, ih, slot_add, List.map_cons, List.sum_cons, add_assoc]

theorem rowSum_slot (weights inputs : List (SlotVector R n)) (k : Nat) :
    (rowSum weights inputs).slot k =
      ((weights.zip inputs).map fun p => p.1.slot k * p.2.slot k).sum := by
  unfold rowSum
  rw [foldl_add_slot, slot_zero, zero_add]
  simp only [slot_mul]

theorem evaluate_slot (input : SlotVector R n) (babysteps : List Int)
    (rows : List (Int × List (SlotVector R n))) {k : Nat} (hk : k < n) :
    (evaluate input babysteps rows).slot k = (rows.map fun row =>
      ((row.2.zip babysteps).map fun p =>
        p.1.slot (source n k row.1) * input.slot (source n k (row.1 + p.2))).sum).sum := by
  have hn : 0 < n := Nat.zero_lt_of_lt hk
  unfold evaluate
  rw [foldl_add_slot, slot_zero, zero_add]
  congr 1
  apply List.map_congr_left
  intro row _
  rw [slot_rotate _ _ hk, rowSum_slot, List.zip_map_right, List.map_map]
  congr 1
  apply List.map_congr_left
  intro p _
  simp only [Function.comp_def, Prod.map, id_eq]
  rw [slot_rotate _ _ (source_lt hn k row.1), source_source hn]

theorem sum_map_zip {β γ : Type} (ws : List β) (bs : List γ) (hl : ws.length = bs.length)
    (f : β × γ → R) :
    ((ws.zip bs).map f).sum = ∑ b : Fin bs.length, f (ws[b], bs[b]) := by
  rw [← List.sum_ofFn]
  congr 1
  apply List.ext_getElem
  · simp [hl]
  · intro i _ _
    simp

section Diagonals
variable {input : SlotVector R n} {babysteps giantsteps : List Int}

/-- The circuit on an operator: each diagonal meets the input rotated by both of its steps. -/
theorem evaluate_weightRows_slot (op : DiagonalOperator R n)
    (hc : babysteps.length * giantsteps.length = op.count) {k : Nat} (hk : k < n) :
    (evaluate input babysteps (weightRows babysteps.length giantsteps op.toList)).slot k =
      ∑ g : Fin giantsteps.length, ∑ b : Fin babysteps.length,
        op.coeff (g * babysteps.length + b) k *
          input.slot (source n k (babysteps[b] + giantsteps[g])) := by
  have hl : op.toList.length = giantsteps.length * babysteps.length := by
    rw [Nat.mul_comm, hc]; rfl
  rw [evaluate_slot _ _ _ hk, weightRows_eq_ofFn, List.map_ofFn, List.sum_ofFn]
  apply sum_congr rfl
  intro g _
  have hg : (g + 1 : Nat) * babysteps.length ≤ op.toList.length := by
    rw [hl]; exact Nat.mul_le_mul_right _ g.isLt
  rw [Nat.succ_mul] at hg
  have hrow : (((op.toList.drop (g * babysteps.length)).take babysteps.length).map
      (·.rotate (-giantsteps[g]))).length = babysteps.length := by
    simp only [List.length_map, List.length_take, List.length_drop]; omega
  simp only [Function.comp_def]
  rw [sum_map_zip _ _ hrow]
  apply sum_congr rfl
  intro b _
  have hb : g * babysteps.length + b < op.toList.length := by omega
  have hd : op.toList.getD (g * babysteps.length + b) 0 = op.toList[g * babysteps.length + b] :=
    (List.getElem_eq_getD 0).symm
  simp only [Fin.getElem_fin, List.getElem_map, List.getElem_take, List.getElem_drop]
  rw [← slot_rotate _ giantsteps[(g : Nat)] hk, rotate_neg_rotate, DiagonalOperator.coeff, hd,
    Int.add_comm]

/-- When every diagonal has one total rotation, the circuit is one sum over the diagonals. -/
theorem evaluate_slot_of_steps (op : DiagonalOperator R n)
    (hc : babysteps.length * giantsteps.length = op.count) (rotation : Nat → Int)
    (hr : ∀ (g : Fin giantsteps.length) (b : Fin babysteps.length),
      (babysteps[b] + giantsteps[g]) % n = rotation (g * babysteps.length + b) % n)
    {k : Nat} (hk : k < n) :
    (evaluate input babysteps (weightRows babysteps.length giantsteps op.toList)).slot k =
      ∑ d ∈ range op.count, op.coeff d k * input.slot (source n k (rotation d)) := by
  rw [evaluate_weightRows_slot op hc hk, ← hc, Nat.mul_comm, ← sum_grid, ← Fin.sum_univ_eq_sum_range
    (fun g => ∑ b ∈ range babysteps.length, op.coeff (g * babysteps.length + b) k *
      input.slot (source n k (rotation (g * babysteps.length + b))))]
  apply sum_congr rfl
  intro g _
  rw [← Fin.sum_univ_eq_sum_range (fun b => op.coeff (g * babysteps.length + b) k *
    input.slot (source n k (rotation (g * babysteps.length + b))))]
  apply sum_congr rfl
  intro b _
  have hs : source n k (babysteps[b] + giantsteps[g]) =
      source n k (rotation (g * babysteps.length + b)) :=
    source_congr (Int.ModEq.add_left _ (hr g b))
  rw [hs]

end Diagonals

section Grid
variable {α : Type} {op : DiagonalOperator α n} {babysteps giantsteps : List Int}

theorem checkGrid_of_mismatch (size_lt : babysteps.length * giantsteps.length < Word.bound)
    (hc : babysteps.length * giantsteps.length ≠ op.count) : checkGrid op babysteps giantsteps =
      rejectShape (.gridMismatch babysteps.length giantsteps.length op.count) := by
  rw [checkGrid, Word.mul_of_lt size_lt, Result.ok_bind, if_neg hc]

theorem checkGrid_of_overflow (hc : Word.bound ≤ babysteps.length * giantsteps.length) :
    checkGrid op babysteps giantsteps = faulty .overflow := by
  rw [checkGrid, Word.mul_of_ge hc]
  rfl

/-- A grid that covers an operator is counted without overflow, as its diagonals are. -/
theorem checkGrid_eq_ok : checkGrid op babysteps giantsteps = .ok () ↔
    babysteps.length * giantsteps.length = op.count := by
  constructor
  · intro h
    by_contra hc
    by_cases size_lt : babysteps.length * giantsteps.length < Word.bound
    · rw [checkGrid_of_mismatch size_lt hc] at h
      cases h
    · rw [checkGrid_of_overflow (Nat.not_lt.mp size_lt)] at h
      cases h
  · intro hc
    rw [checkGrid, Word.mul_of_lt (hc ▸ op.addressable), Result.ok_bind, if_pos hc]

end Grid

theorem checkRotations_of_pos (hn : 0 < n) (babysteps giantsteps : List Int) :
    checkRotations n babysteps giantsteps = .ok () := if_neg fun h => hn.ne' h.1

theorem matmul_eq_ok {α : Type} [Zero α] [Add α] [Mul α] (hn : 0 < n) (input : SlotVector α n)
    {op : DiagonalOperator α n} {babysteps giantsteps : List Int}
    (hc : babysteps.length * giantsteps.length = op.count)
    (least : Word.leastSigned ∉ giantsteps) :
    matmul input op babysteps giantsteps =
      .ok (evaluate input babysteps (weightRows babysteps.length giantsteps op.toList)) := by
  rw [matmul, checkGrid_eq_ok.mpr hc, checkRotations_of_pos hn, Result.ok_bind, Result.ok_bind,
    if_neg fun h => least h.2]
  rfl

end Circuit
end SlotPacking
