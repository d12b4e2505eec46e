import SlotPacking.Proofs.EncodedCircuit
import SlotPacking.Proofs.Splits

/-!
The circuit on the steps of a split. Diagonal `g * |B| + b` meets the input
rotated by `b` babystep strides and `g` giantstep strides.
-/
namespace SlotPacking.Split
open Finset SlotVector Circuit
open scoped BigOperators

section Evaluation
variable {α : Type} [Zero α] [Add α] [Mul α]

/-- The circuit of an operator on the steps of a split. -/
def run (s : Split) (op : DiagonalOperator α slotCount) (x : Slots α) : Slots α :=
  evaluate x s.babyList (weightRows s.babyList.length s.giantList op.toList)

theorem evaluateEncoded_eq_run {s : Split} {op : DiagonalOperator α slotCount}
    {bundle : Bundle α slotCount} {base : String} {scale : Scale}
    (hc : op.count = s.babyCount * s.giantCount)
    (h : Encodes bundle base op scale s.babyList s.giantList) (x : Slots α) :
    evaluateEncoded x bundle base s.babyList s.giantList = .ok (s.run op x) := by
  apply evaluateEncoded_of_encodes (by decide) x _ h
  rw [babyList, giantList, length_steps, length_steps, hc]

end Evaluation

/-- When every diagonal has one total rotation, the circuit is one sum over the diagonals. -/
theorem run_slot {R : Type} [CommRing R] {s : Split} {op : DiagonalOperator R slotCount}
    (hc : op.count = s.babyCount * s.giantCount) (rotation : Nat → Nat)
    (hr : ∀ g < s.giantCount, ∀ b < s.babyCount,
      b * s.babyStride + g * s.giantStride = rotation (g * s.babyCount + b))
    (x : Slots R) {k : Nat} (hk : k < slotCount) :
    (s.run op x).slot k =
      ∑ d ∈ range op.count, op.coeff d k * x.slot ((k + rotation d) % slotCount) := by
  have grid : s.babyList.length * s.giantList.length = op.count := by
    rw [babyList, giantList, length_steps, length_steps, hc]
  have steps (g : Fin s.giantList.length) (b : Fin s.babyList.length) :
      (s.babyList[b] + s.giantList[g]) % (slotCount : Int) =
        (rotation (g * s.babyList.length + b) : Int) % slotCount := by
    have hg : (g : Nat) < s.giantCount := g.isLt.trans_eq length_steps
    have hb : (b : Nat) < s.babyCount := b.isLt.trans_eq length_steps
    rw [Fin.getElem_fin, Fin.getElem_fin]
    simp only [babyList, giantList, getElem_steps, length_steps]
    rw [← Int.natCast_add, hr g hg b hb]
  rw [run, evaluate_slot_of_steps op grid (fun d => (rotation d : Int)) steps hk]
  simp only [source_natCast]

end SlotPacking.Split
