import SlotPacking.Layout
import SlotPacking.Proofs.MatrixEntries
import Mathlib.Data.List.Nodup

/-!
The steps of a split. As long as they stay within signed words they are the
plain multiples of the strides, all different, and all have an opposite.
-/
namespace SlotPacking.Split
open Result

/-- The first multiples of a stride. -/
def steps (count stride : Nat) : List Int :=
  (List.range count).map fun i => ((i * stride : Nat) : Int)

section Steps
variable {count stride : Nat}

@[simp] theorem length_steps : (steps count stride).length = count := by
  simp [steps]

@[simp] theorem getElem_steps {i : Nat} (hi : i < (steps count stride).length) :
    (steps count stride)[i] = ((i * stride : Nat) : Int) := by
  simp [steps]

theorem steps_getElem? {i : Nat} (hi : i < count) :
    (steps count stride)[i]? = some ((i * stride : Nat) : Int) := by
  simp [steps, hi]

theorem nodup_steps (hs : 0 < stride) : (steps count stride).Nodup :=
  List.nodup_range.map fun _ _ h => Nat.mul_right_cancel hs (Int.ofNat_inj.mp h)

theorem leastSigned_not_mem_steps : Word.leastSigned ∉ steps count stride := by
  intro h
  obtain ⟨i, -, hi⟩ := List.mem_map.mp h
  unfold Word.leastSigned at hi
  omega

theorem multiples_eq_ok (hs : 0 < stride) (h : count * stride ≤ 0x8000000000000000) :
    multiples count stride = .ok (steps count stride) := by
  apply mapM_eq_ok_map
  intro i hi
  have hw := Nat.mul_lt_mul_of_pos_right (List.mem_range.mp hi) hs
  rw [Word.mul_of_lt (by unfold Word.bound; omega), Except.map, Word.signed_of_lt (by omega)]

end Steps

def babyList (s : Split) : List Int := steps s.babyCount s.babyStride

def giantList (s : Split) : List Int := steps s.giantCount s.giantStride

/-- A grid with cells whose steps fit signed words. -/
structure Proper (s : Split) : Prop where
  babyCount_pos : 0 < s.babyCount
  babyStride_pos : 0 < s.babyStride
  giantCount_pos : 0 < s.giantCount
  giantStride_pos : 0 < s.giantStride
  baby_fits : s.babyCount * s.babyStride ≤ 0x8000000000000000
  giant_fits : s.giantCount * s.giantStride ≤ 0x8000000000000000
  grid_fits : s.babyCount * s.giantCount < Word.bound

theorem conv_proper : conv.Proper := by constructor <;> decide

theorem fc1_proper : fc1.Proper := by constructor <;> decide

theorem fc2_proper : fc2.Proper := by constructor <;> decide

namespace Proper
variable {s : Split}

theorem babysteps_eq (h : s.Proper) : s.babysteps = .ok s.babyList :=
  multiples_eq_ok h.babyStride_pos h.baby_fits

theorem giantsteps_eq (h : s.Proper) : s.giantsteps = .ok s.giantList :=
  multiples_eq_ok h.giantStride_pos h.giant_fits

theorem diagonals_eq (h : s.Proper) : s.diagonals = .ok (s.babyCount * s.giantCount) :=
  Word.mul_of_lt h.grid_fits

theorem babyList_ne_nil (h : s.Proper) : s.babyList ≠ [] :=
  List.ne_nil_of_length_pos (length_steps.symm ▸ h.babyCount_pos)

theorem giantList_ne_nil (h : s.Proper) : s.giantList ≠ [] :=
  List.ne_nil_of_length_pos (length_steps.symm ▸ h.giantCount_pos)

end Proper
end SlotPacking.Split
