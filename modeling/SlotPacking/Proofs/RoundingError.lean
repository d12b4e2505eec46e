import Mathlib.Data.Rat.Floor
import SlotPacking.Proofs.NumberGrid

/-!
What rounding loses. A rounded number misses the exact one by half a spacing, and
by a factor of `1 + roundoff` where its significand is full. Two such factors move
a number by two patterns at most.
-/
namespace SlotPacking.Binary64

/-- The greatest relative error of a rounding to a full significand. -/
def roundoff : ℚ := 1 / (2 * hiddenBit)

theorem roundoff_pos : 0 < roundoff := by
  norm_num [roundoff, hiddenBit]

theorem hiddenBit_mul_roundoff : hiddenBit * roundoff = 1 / 2 := by
  norm_num [roundoff, hiddenBit]

theorem unit_succ (q : ℕ) : unit (q + 1) = 2 * unit q := by
  rw [unit, unit, pow_succ', mul_div_assoc]

theorem unit_mono : Monotone unit :=
  monotone_nat_of_le_succ fun q => by linarith [unit_succ q, unit_pos q]

section Grid
variable {q m bits : ℕ} {x y : ℚ}

/-- Up to twice the hidden bit, the multiples of every spacing are on the grid. -/
theorem exists_value_eq (q : ℕ) {k : ℕ} (hk : k ≤ 2 * hiddenBit) :
    ∃ bits, value bits = k * unit q := by
  rcases hk.eq_or_lt with rfl | hlt
  · have next : Normalized (q + 1) hiddenBit := ⟨by decide, .inr le_rfl⟩
    refine ⟨_, next.value_eq.trans ?_⟩
    rw [unit_succ]
    push_cast
    ring
  induction q generalizing k with
  | zero => exact ⟨_, Normalized.value_eq ⟨hlt, .inl rfl⟩⟩
  | succ q ih =>
    by_cases hfull : hiddenBit ≤ k
    · exact ⟨_, Normalized.value_eq ⟨hlt, .inr hfull⟩⟩
    · obtain ⟨bits, hbits⟩ := @ih (2 * k) (by omega) (by omega)
      refine ⟨bits, hbits.trans ?_⟩
      rw [unit_succ]
      push_cast
      ring

/-- From a pattern on, every step on the grid is at least the spacing of the pattern. -/
theorem Normalized.value_add_le (h : Normalized q m) (n : ℕ) :
    value (q * hiddenBit + m) + n * unit q ≤ value (q * hiddenBit + m + n) := by
  induction n with
  | zero => simp
  | succ n ih =>
    obtain ⟨q', m', h', place⟩ := exists_normalized (q * hiddenBit + m + n)
    have hq : q ≤ q' := by
      obtain ⟨hlt, hfull⟩ := h
      obtain ⟨hlt', hfull'⟩ := h'
      unfold hiddenBit at *
      omega
    have next : value (q * hiddenBit + m + n) + unit q' = value (q * hiddenBit + m + (n + 1)) := by
      rw [← Nat.add_assoc, place, h'.value_eq, h'.value_succ]
      ring
    have := unit_mono hq
    push_cast
    linarith

theorem value_add_unit_le (bits n : ℕ) : value bits + n * unit 0 ≤ value (bits + n) := by
  obtain ⟨q, m, h, rfl⟩ := exists_normalized bits
  have := mul_le_mul_of_nonneg_left (unit_mono q.zero_le) (Nat.cast_nonneg (α := ℚ) n)
  linarith [h.value_add_le n]

/-- Less than half a spacing away from a pattern is rounded to it. The spacing is the one below it,
which is not greater than the one above. -/
theorem Normalized.rounds_succ (h : Normalized q m) (hx : |x - (m + 1) * unit q| < unit q / 2) :
    Rounds x (q * hiddenBit + m + 1) := by
  have hu := unit_pos q
  have here := h.value_succ
  have above : (m + 2) * unit q ≤ value (q * hiddenBit + m + 1 + 1) := by
    have step := h.value_add_le 2
    rw [h.value_eq] at step
    push_cast at step
    linarith
  obtain ⟨hlow, hhigh⟩ := abs_lt.mp hx
  rcases le_or_gt ((m + 1) * unit q) x with hside | hside
  · refine .of_neighbours _ (here.trans_le hside) (by linarith) (.inl ⟨rfl, by linarith⟩) ?_
    intro hmid
    linarith
  · refine .of_neighbours (q * hiddenBit + m) (by rw [h.value_eq]; linarith) (here ▸ hside)
      (.inr ⟨rfl, by rw [h.value_eq]; linarith⟩) ?_
    intro hmid
    rw [h.value_eq] at hmid
    linarith

/-- Rounding is exact up to half of a spacing at which the number has a significand. -/
theorem Rounds.abs_sub_le (h : Rounds x bits) (hx : 0 ≤ x) (hq : x ≤ 2 * hiddenBit * unit q) :
    |value bits - x| ≤ unit q / 2 := by
  have hu := unit_pos q
  obtain ⟨y, rfl⟩ : ∃ y, x = y * unit q := ⟨x / unit q, (div_mul_cancel₀ x hu.ne').symm⟩
  have hy : 0 ≤ y := nonneg_of_mul_nonneg_left hx hu
  have hmax : y ≤ 2 * hiddenBit := le_of_mul_le_mul_right hq hu
  have lower : (⌊y + 1 / 2⌋₊ : ℚ) ≤ y + 1 / 2 := Nat.floor_le (by linarith)
  have upper : y + 1 / 2 < ⌊y + 1 / 2⌋₊ + 1 := Nat.lt_floor_add_one _
  have hk : ⌊y + 1 / 2⌋₊ < 2 * hiddenBit + 1 := by
    rw [Nat.floor_lt (by linarith)]
    push_cast
    linarith
  obtain ⟨other, hother⟩ := exists_value_eq q (Nat.le_of_lt_succ hk)
  calc |value bits - y * unit q| ≤ |value other - y * unit q| := h.nearest other
    _ = |⌊y + 1 / 2⌋₊ - y| * unit q := by rw [hother, ← sub_mul, abs_mul, abs_of_pos hu]
    _ ≤ 1 / 2 * unit q := by
      apply mul_le_mul_of_nonneg_right _ hu.le
      rw [abs_le]
      constructor <;> linarith
    _ = unit q / 2 := by ring

/-- The spacing at which a number that is not too small has a full significand. -/
theorem exists_full (hx : hiddenBit * unit 0 ≤ x) (hq : x ≤ 2 * hiddenBit * unit q) :
    ∃ q, hiddenBit * unit q ≤ x ∧ x ≤ 2 * hiddenBit * unit q := by
  induction q with
  | zero => exact ⟨0, hx, hq⟩
  | succ q ih =>
    by_cases hlow : x ≤ 2 * hiddenBit * unit q
    · exact ih hlow
    · refine ⟨q + 1, ?_, hq⟩
      rw [unit_succ]
      linarith

theorem Rounds.le_greatest (h : Rounds x bits) : ∃ q, x ≤ 2 * hiddenBit * unit q := by
  obtain ⟨q, m, hn, rfl⟩ := exists_normalized bits
  have mid := h.below_midpoint (Nat.lt_succ_self _)
  have hm : (m + 1 : ℚ) ≤ 2 * hiddenBit := by exact_mod_cast Nat.succ_le_of_lt hn.lt
  have := mul_le_mul_of_nonneg_right hm (unit_pos q).le
  rw [hn.value_eq, hn.value_succ] at mid
  exact ⟨q, by linarith [unit_pos q]⟩

end Grid

/-- Neither of two numbers is greater than the other by more than the factor. -/
structure Within (factor x y : ℚ) : Prop where
  le : x ≤ factor * y
  ge : y ≤ factor * x

namespace Within
variable {f g x y z w : ℚ}

theorem refl (x : ℚ) : Within 1 x x := ⟨(one_mul x).ge, (one_mul x).ge⟩

theorem symm (h : Within f x y) : Within f y x := ⟨h.ge, h.le⟩

theorem mono (h : Within f x y) (hx : 0 ≤ x) (hy : 0 ≤ y) (hfg : f ≤ g) : Within g x y :=
  ⟨h.le.trans (mul_le_mul_of_nonneg_right hfg hy), h.ge.trans (mul_le_mul_of_nonneg_right hfg hx)⟩

theorem trans (h : Within f x y) (h' : Within g y z) (hf : 0 ≤ f) (hg : 0 ≤ g) :
    Within (f * g) x z := by
  constructor
  · calc x ≤ f * y := h.le
      _ ≤ f * (g * z) := mul_le_mul_of_nonneg_left h'.le hf
      _ = f * g * z := (mul_assoc f g z).symm
  · calc z ≤ g * y := h'.ge
      _ ≤ g * (f * x) := mul_le_mul_of_nonneg_left h.ge hg
      _ = f * g * x := by ring

theorem mul_right (h : Within f x y) (hz : 0 ≤ z) : Within f (x * z) (y * z) := by
  constructor
  · rw [← mul_assoc]
    exact mul_le_mul_of_nonneg_right h.le hz
  · rw [← mul_assoc]
    exact mul_le_mul_of_nonneg_right h.ge hz

theorem inv (h : Within f x y) (hx : 0 < x) (hy : 0 < y) : Within f x⁻¹ y⁻¹ := by
  constructor
  · rw [inv_le_iff_one_le_mul₀ hx, mul_comm, ← mul_assoc, mul_comm x f, ← div_eq_mul_inv,
      one_le_div hy]
    exact h.ge
  · rw [inv_le_iff_one_le_mul₀ hy, mul_comm, ← mul_assoc, mul_comm y f, ← div_eq_mul_inv,
      one_le_div hx]
    exact h.le

theorem mul (h : Within f x y) (h' : Within g z w) (hz : 0 ≤ z) (hy : 0 ≤ y) (hf : 0 ≤ f)
    (hg : 0 ≤ g) : Within (f * g) (x * z) (y * w) := by
  have right := h'.mul_right hy
  rw [mul_comm z, mul_comm w] at right
  exact (h.mul_right hz).trans right hf hg

theorem div (h : Within f x y) (h' : Within g z w) (hz : 0 < z) (hw : 0 < w) (hy : 0 ≤ y)
    (hf : 0 ≤ f) (hg : 0 ≤ g) : Within (f * g) (x / z) (y / w) := by
  rw [div_eq_mul_inv, div_eq_mul_inv]
  exact h.mul (h'.inv hz hw) (inv_nonneg.mpr hz.le) hy hf hg

/-- A difference that is small against both numbers. -/
theorem of_abs_sub_le {a b : ℚ} (h : |y - x| ≤ a) (hx : a ≤ b * x) (hy : a ≤ b * y) :
    Within (1 + b) x y := by
  obtain ⟨hlow, hhigh⟩ := abs_le.mp h
  constructor <;> linarith

end Within

namespace Rounds
variable {x y : ℚ} {q b c : ℕ}

theorem value_ge (h : Rounds x b) (hx : hiddenBit * unit q ≤ x) : hiddenBit * unit q ≤ value b := by
  obtain ⟨other, hother⟩ := exists_value_eq q (show hiddenBit ≤ 2 * hiddenBit by omega)
  rw [← hother] at hx ⊢
  exact value_strictMono.monotone ((Rounds.self other).mono h hx)

/-- A number with a full significand is rounded by a factor of `1 + roundoff` at most. -/
theorem within (h : Rounds x b) (hx : hiddenBit * unit 0 ≤ x) :
    Within (1 + roundoff) x (value b) := by
  obtain ⟨q, hq⟩ := h.le_greatest
  obtain ⟨q, hlow, hhigh⟩ := exists_full hx hq
  have hu := unit_pos q
  have hnonneg : 0 ≤ x := (by positivity : (0 : ℚ) ≤ hiddenBit * unit q).trans hlow
  have half {y : ℚ} (hy : hiddenBit * unit q ≤ y) : unit q / 2 ≤ roundoff * y := by
    calc unit q / 2 = roundoff * (hiddenBit * unit q) := by
          rw [← mul_assoc, mul_comm roundoff, hiddenBit_mul_roundoff]
          ring
      _ ≤ roundoff * y := mul_le_mul_of_nonneg_left hy roundoff_pos.le
  exact .of_abs_sub_le (h.abs_sub_le hnonneg hhigh) (half hlow) (half (h.value_ge hlow))

/-- Two errors of a rounding move the rounded number up by two patterns at most: three patterns
above, the midpoint of the neighbours is farther away. -/
theorem le_add_two (hx : Rounds x b) (hy : Rounds y c) (h : y ≤ (1 + roundoff) ^ 2 * x) :
    c ≤ b + 2 := by
  by_contra hgt
  obtain ⟨q, m, hn, rfl⟩ := exists_normalized b
  have hu := unit_pos q
  have below := hx.below_midpoint (Nat.lt_succ_self _)
  have above := hy.above_midpoint (show q * hiddenBit + m + 2 < c by omega)
  have second := hn.value_add_le 2
  have third := (hn.value_add_le 3).trans
    (value_strictMono.monotone (show q * hiddenBit + m + 3 ≤ c by omega))
  rw [hn.value_eq, hn.value_succ] at below
  rw [hn.value_eq] at second third
  have full : (2 * m + 1 : ℚ) ≤ 4 * hiddenBit - 1 := by
    have := hn.lt
    have : 2 * m + 2 ≤ 4 * hiddenBit := by omega
    have : (2 * m + 2 : ℚ) ≤ 4 * hiddenBit := by exact_mod_cast this
    linarith
  have spread : (2 * m + 5) * unit q ≤ (1 + roundoff) ^ 2 * (2 * m + 1) * unit q := by
    have hpow : 0 ≤ (1 + roundoff) ^ 2 := sq_nonneg _
    have := mul_le_mul_of_nonneg_left below hpow
    push_cast at second third
    nlinarith
  have spread := le_of_mul_le_mul_right spread hu
  have growth : (2 * roundoff + roundoff ^ 2) * (2 * m + 1) ≤
      (2 * roundoff + roundoff ^ 2) * (4 * hiddenBit - 1) :=
    mul_le_mul_of_nonneg_left full (by have := roundoff_pos; positivity)
  have tight : (2 * roundoff + roundoff ^ 2) * (4 * hiddenBit - 1) < 4 := by
    norm_num [roundoff, hiddenBit]
  linarith

theorem le_succ (hx : Rounds x b) (hy : Rounds y c) (h : y < x + unit 0) : c ≤ b + 1 := by
  by_contra hgt
  have below := hx.below_midpoint (Nat.lt_succ_self b)
  have above := hy.above_midpoint (show b + 1 < c by omega)
  have first := value_add_unit_le b 1
  have second := (value_add_unit_le (b + 1) 1).trans
    (value_strictMono.monotone (show b + 1 + 1 ≤ c by omega))
  push_cast at first second
  linarith

end Rounds

/-- What at most two roundings do to a number, or what is less than the least spacing. -/
def Near (x y : ℚ) : Prop := Within ((1 + roundoff) ^ 2) x y ∨ |y - x| < unit 0

/-- Patterns that are at most two steps apart. -/
structure TwoSteps (b c : ℕ) : Prop where
  le : c ≤ b + 2
  ge : b ≤ c + 2

/-- Numbers that are near to each other are rounded to patterns at most two steps apart. -/
theorem Near.twoSteps {x y : ℚ} {b c : ℕ} (h : Near x y) (hx : Rounds x b) (hy : Rounds y c) :
    TwoSteps b c := by
  rcases h with h | h
  · exact ⟨hx.le_add_two hy h.ge, hy.le_add_two hx h.le⟩
  · obtain ⟨hlow, hhigh⟩ := abs_lt.mp h
    have up := hx.le_succ hy (by linarith)
    have down := hy.le_succ hx (by linarith)
    exact ⟨by omega, by omega⟩

theorem Near.div {x y d : ℚ} (h : Near x y) (hd : 1 ≤ d) : Near (x / d) (y / d) := by
  have hpos : 0 < d := zero_lt_one.trans_le hd
  refine h.imp (fun h => ?_) fun h => ?_
  · rw [div_eq_mul_inv, div_eq_mul_inv]
    exact h.mul_right (inv_nonneg.mpr hpos.le)
  · rw [← sub_div, abs_div, abs_of_pos hpos]
    exact (div_le_self (abs_nonneg _) hd).trans_lt h

end SlotPacking.Binary64
