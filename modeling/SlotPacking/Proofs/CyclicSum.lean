import Mathlib.Algebra.BigOperators.Intervals
import Mathlib.Data.Int.ModEq
import Mathlib.Data.Nat.ModEq

/-!
Sums over a grid and around a cycle. A grid of `a` rows and `w` columns runs
through its flat index row by row; a full turn around a cycle meets every place
once, wherever it starts.
-/
namespace SlotPacking
open Finset
open scoped BigOperators
variable {M : Type} [AddCommMonoid M]

theorem sum_grid (f : Nat → M) (a w : Nat) :
    ∑ g ∈ range a, ∑ b ∈ range w, f (g * w + b) = ∑ d ∈ range (a * w), f d := by
  induction a with
  | zero => simp
  | succ a ih => rw [sum_range_succ, ih, Nat.succ_mul, sum_range_add]

/-- A grid read column by column. -/
theorem sum_grid_transpose (f : Nat → M) (a w : Nat) :
    ∑ d ∈ range (a * w), f (d % w * a + d / w) = ∑ d ∈ range (w * a), f d := by
  rw [← sum_grid (fun d => f (d % w * a + d / w)), ← sum_grid f, sum_comm]
  refine sum_congr rfl fun b hb => sum_congr rfl fun g _ => ?_
  have hw := mem_range.mp hb
  rw [Nat.add_comm (g * w), Nat.add_mul_mod_self_right, Nat.mod_eq_of_lt hw,
    Nat.add_mul_div_right _ _ (Nat.zero_lt_of_lt hw), Nat.div_eq_of_lt hw, Nat.zero_add]

theorem sum_range_lt (f : Nat → M) {m n : Nat} (h : m ≤ n) :
    ∑ d ∈ range n, (if d < m then f d else 0) = ∑ d ∈ range m, f d := by
  rw [← sum_subset (range_subset_range.mpr h) fun d _ hd => if_neg (mt mem_range.mpr hd)]
  exact sum_congr rfl fun d hd => if_pos (mem_range.mp hd)

theorem add_mod_injOn (n a : Nat) : Set.InjOn (fun d => (a + d) % n) (range n) := by
  intro d hd e he h
  have hm : d ≡ e [MOD n] := Nat.ModEq.add_left_cancel' a h
  exact hm.eq_of_lt_of_lt (mem_range.mp hd) (mem_range.mp he)

theorem sum_cycle (f : Nat → M) (n a : Nat) :
    ∑ d ∈ range n, f ((a + d) % n) = ∑ d ∈ range n, f d := by
  have maps : Set.MapsTo (fun d => (a + d) % n) (range n) (range n) := by
    intro d hd
    exact mem_coe.mpr (mem_range.mpr (Nat.mod_lt _ (Nat.zero_lt_of_lt (mem_range.mp hd))))
  exact sum_nbij (fun d => (a + d) % n) maps (add_mod_injOn n a)
    (surjOn_of_injOn_of_card_le _ maps (add_mod_injOn n a) le_rfl) fun _ _ => rfl

/-- A full turn that counts only the first `m` places. -/
theorem sum_cycle_lt (f : Nat → M) {m n : Nat} (h : m ≤ n) (a : Nat) :
    ∑ d ∈ range n, (if (a + d) % n < m then f ((a + d) % n) else 0) = ∑ d ∈ range m, f d := by
  rw [sum_cycle (fun d => if d < m then f d else 0), sum_range_lt f h]

/-- Rows of a grid, each met around the cycle from its own start, make one full turn. -/
theorem sum_grid_cycle (f : Nat → M) (a w start : Nat) :
    ∑ g ∈ range a, ∑ b ∈ range w, f ((start + g * w + b) % (a * w)) =
      ∑ d ∈ range (a * w), f d := by
  simp only [Nat.add_assoc]
  rw [sum_grid (fun d => f ((start + d) % (a * w))), sum_cycle]

end SlotPacking
