import Mathlib.Algebra.Order.Ring.Nat
import Mathlib.Order.Compare
import SlotPacking.Scale.Basic

/-!
The comparison of fractions decides their order: it agrees with the order of the
products by the other denominators. Fractions in lowest terms that compare as
equal are the same, so scales may be tested for equality by comparing them.
-/
namespace SlotPacking

namespace Fraction
variable {a b : Fraction}

theorem compare_mul_right {k : ℕ} (h : 0 < k) (m n : ℕ) :
    Ord.compare (m * k) (n * k) = Ord.compare m n := by
  rw [← cmp_eq_compare, ← cmp_eq_compare, cmp_mul_pos_right h]

theorem compare_mul_left {k : ℕ} (h : 0 < k) (m n : ℕ) :
    Ord.compare (k * m) (k * n) = Ord.compare m n := by
  rw [Nat.mul_comm k m, Nat.mul_comm k n, compare_mul_right h]

/-- A fraction with the smaller integer part is smaller. -/
theorem cross_lt_of_div_lt (h : a.num / a.den < b.num / b.den) :
    a.num * b.den < b.num * a.den := by
  apply Nat.lt_of_div_lt_div (c := a.den * b.den)
  rwa [Nat.mul_div_mul_right _ _ b.den_pos, Nat.mul_comm a.den b.den,
    Nat.mul_div_mul_right _ _ a.den_pos]

/-- With one integer part, the products differ as those of the rests do. -/
theorem compare_cross_of_div_eq (h : a.num / a.den = b.num / b.den) :
    Ord.compare (a.num * b.den) (b.num * a.den) =
      Ord.compare (a.num % a.den * b.den) (b.num % b.den * a.den) := by
  have left : a.num * b.den = a.num / a.den * (a.den * b.den) + a.num % a.den * b.den := by
    rw [← Nat.mul_assoc, ← Nat.add_mul, Nat.div_add_mod']
  have right : b.num * a.den = a.num / a.den * (a.den * b.den) + b.num % b.den * a.den := by
    rw [h, Nat.mul_comm a.den b.den, ← Nat.mul_assoc, ← Nat.add_mul, Nat.div_add_mod']
  rw [left, right, ← cmp_eq_compare, cmp_add_left, cmp_eq_compare]

/-- Each step of the comparison keeps the order of the products. -/
theorem compare_eq_cross (a b : Fraction) :
    a.compare b = Ord.compare (a.num * b.den) (b.num * a.den) := by
  fun_induction compare a b with
  | case1 a b hden => rw [hden, compare_mul_right b.den_pos]
  | case2 a b _ hnum hzero => simp [← hnum, hzero]
  | case3 a b _ hnum hzero =>
    rw [Nat.compare_swap, hnum, compare_mul_left (Nat.pos_of_ne_zero (hnum ▸ hzero))]
  | case4 a b _ _ parts =>
    exact (compare_lt_iff_lt.mpr (cross_lt_of_div_lt (compare_lt_iff_lt.mp parts))).symm
  | case5 a b _ _ parts =>
    exact (compare_gt_iff_gt.mpr (cross_lt_of_div_lt (compare_gt_iff_gt.mp parts))).symm
  | case6 a b _ _ parts ha hb =>
    rw [compare_cross_of_div_eq (compare_eq_iff_eq.mp parts), ha, hb, Nat.zero_mul, Nat.zero_mul]
    exact (compare_eq_iff_eq.mpr rfl).symm
  | case7 a b _ _ parts ha hb =>
    have rest : 0 < b.num % b.den * a.den := Nat.mul_pos (Nat.pos_of_ne_zero hb) a.den_pos
    rw [compare_cross_of_div_eq (compare_eq_iff_eq.mp parts), ha, Nat.zero_mul,
      compare_lt_iff_lt.mpr rest]
  | case8 a b _ _ parts ha hb =>
    have rest : 0 < a.num % a.den * b.den := Nat.mul_pos (Nat.pos_of_ne_zero ha) b.den_pos
    rw [compare_cross_of_div_eq (compare_eq_iff_eq.mp parts), hb, Nat.zero_mul,
      compare_gt_iff_gt.mpr rest]
  | case9 a b _ _ parts ha hb ih =>
    rw [compare_cross_of_div_eq (compare_eq_iff_eq.mp parts), ih, Nat.compare_swap,
      Nat.mul_comm b.den, Nat.mul_comm a.den]

/-- Fractions in lowest terms that denote the same are the same. -/
theorem IsLowest.eq_of_cross (ha : a.IsLowest) (hb : b.IsLowest)
    (h : a.num * b.den = b.num * a.den) : a = b := by
  have den : a.den = b.den := by
    apply Nat.dvd_antisymm
    · exact ha.symm.dvd_of_dvd_mul_left (h ▸ Nat.dvd_mul_left a.den b.num)
    · exact hb.symm.dvd_of_dvd_mul_left (h ▸ Nat.dvd_mul_left b.den a.num)
  rw [den] at h
  exact ext_num_den (Nat.eq_of_mul_eq_mul_right b.den_pos h) den

theorem IsLowest.compare_eq_iff (ha : a.IsLowest) (hb : b.IsLowest) :
    a.compare b = .eq ↔ a = b := by
  rw [compare_eq_cross, compare_eq_iff_eq]
  exact ⟨ha.eq_of_cross hb, fun h => h ▸ rfl⟩

end Fraction

namespace Scale
variable {a b : Scale}

/-- Only a scale itself compares as equal to it. -/
theorem compare_eq_eq_iff : compare a b = .eq ↔ a = b := by
  refine (a.lowest.compare_eq_iff b.lowest).trans ⟨fun h => ?_, fun h => congrArg toFraction h⟩
  exact ext_num_den (congrArg Fraction.num h) (congrArg Fraction.den h)

theorem beq_iff_compare : (a == b) = true ↔ compare a b = .eq := by
  change (compare a b == .eq) = true ↔ _
  exact beq_iff_eq

instance : LawfulBEq Scale where
  rfl := beq_iff_compare.mpr (compare_eq_eq_iff.mpr rfl)
  eq_of_beq h := compare_eq_eq_iff.mp (beq_iff_compare.mp h)

end Scale
end SlotPacking
