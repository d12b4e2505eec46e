import Mathlib.Algebra.Order.Field.Basic
import Mathlib.Algebra.Order.Field.Rat
import Mathlib.Data.Nat.Cast.Order.Field
import Mathlib.Order.Monotone.Basic
import Mathlib.Tactic.FieldSimp
import Mathlib.Tactic.Linarith
import Mathlib.Tactic.Positivity
import Mathlib.Tactic.Ring
import SlotPacking.Binary64.Rounding

/-!
Rounding to binary64 on the grid of bit patterns. The pattern of a magnitude is
its index in the increasing list of all magnitudes; the list goes on beyond the
finite numbers with the same formula. Rounding finds the neighbours of a ratio on
this unbounded grid and takes the nearer one; where it stands at infinity or
above, the result is infinite.
-/
namespace SlotPacking.Binary64

/-- The rational that the bits of a magnitude stand for. -/
def value (bits : ℕ) : ℚ := scaledValue bits / 2 ^ 1074

/-- The distance of two neighbours at the spacing `q`. -/
def unit (q : ℕ) : ℚ := 2 ^ q / 2 ^ 1074

theorem unit_pos (q : ℕ) : 0 < unit q := by
  unfold unit
  positivity

theorem unit_eq_zpow (q : ℕ) : unit q = 2 ^ ((q : ℤ) - 1074) := by
  rw [zpow_sub₀ two_ne_zero]
  rfl

/-- A significand `m` at the spacing `q`: full, or at the least spacing. -/
structure Normalized (q m : ℕ) : Prop where
  lt : m < 2 * hiddenBit
  full : q = 0 ∨ hiddenBit ≤ m

namespace Normalized
variable {q m : ℕ}

theorem scaledValue_eq (h : Normalized q m) : scaledValue (q * hiddenBit + m) = m * 2 ^ q := by
  obtain ⟨hlt, hfull⟩ := h
  unfold scaledValue
  rw [Nat.pow_eq]
  by_cases hm : m < hiddenBit
  · obtain rfl : q = 0 := hfull.resolve_right (by omega)
    rw [Nat.zero_mul, Nat.zero_add, if_pos hm, pow_zero, Nat.mul_one]
  · have hdiv : (q * hiddenBit + m) / hiddenBit - 1 = q := by
      unfold hiddenBit at *
      omega
    have hmod : (q * hiddenBit + m) % hiddenBit = m - hiddenBit := by
      unfold hiddenBit at *
      omega
    rw [if_neg (by omega), hmod, hdiv, Nat.add_sub_cancel' (by omega)]

/-- The next pattern stands one spacing higher. A significand that is used up goes on with the
next spacing, where its successor is the least full one. -/
theorem scaledValue_succ (h : Normalized q m) :
    scaledValue (q * hiddenBit + m + 1) = (m + 1) * 2 ^ q := by
  by_cases hm : m + 1 < 2 * hiddenBit
  · have next : Normalized q (m + 1) := ⟨hm, h.full.imp_right fun hfull => by omega⟩
    rw [Nat.add_assoc, next.scaledValue_eq]
  · have carry : m + 1 = 2 * hiddenBit := by
      have := h.lt
      omega
    have next : Normalized (q + 1) hiddenBit := ⟨by decide, .inr le_rfl⟩
    have place : q * hiddenBit + m + 1 = (q + 1) * hiddenBit + hiddenBit := by
      rw [Nat.succ_mul]
      omega
    rw [place, next.scaledValue_eq, carry, pow_succ']
    ring

theorem value_eq (h : Normalized q m) : value (q * hiddenBit + m) = m * unit q := by
  rw [value, h.scaledValue_eq, unit]
  push_cast
  exact mul_div_assoc _ _ _

theorem value_succ (h : Normalized q m) : value (q * hiddenBit + m + 1) = (m + 1) * unit q := by
  rw [value, h.scaledValue_succ, unit]
  push_cast
  exact mul_div_assoc _ _ _

end Normalized

theorem exists_normalized (bits : ℕ) : ∃ q m, Normalized q m ∧ bits = q * hiddenBit + m := by
  refine ⟨bits / hiddenBit - 1, bits - (bits / hiddenBit - 1) * hiddenBit, ⟨?_, ?_⟩, ?_⟩ <;>
    unfold hiddenBit <;> omega

theorem scaledValue_strictMono : StrictMono scaledValue := by
  apply strictMono_nat_of_lt_succ
  intro bits
  obtain ⟨q, m, h, rfl⟩ := exists_normalized bits
  rw [h.scaledValue_eq, h.scaledValue_succ]
  exact Nat.mul_lt_mul_of_pos_right (Nat.lt_succ_self m) (Nat.two_pow_pos q)

theorem value_strictMono : StrictMono value := fun a b h =>
  div_lt_div_of_pos_right (Nat.cast_lt.mpr (scaledValue_strictMono h)) (by positivity)

theorem value_zero : value 0 = 0 := by simp [value, scaledValue, hiddenBit]

/-- The pattern is on the unbounded grid next to `x`, and even where two are equally near. -/
structure Rounds (x : ℚ) (bits : ℕ) : Prop where
  nearest : ∀ other, |value bits - x| ≤ |value other - x|
  even : ∀ other ≠ bits, |value bits - x| = |value other - x| → bits % 2 = 0

section Distance
variable {x a b : ℚ}

theorem upper_nearer_iff (h : a < b) : |b - x| ≤ |a - x| ↔ a + b ≤ 2 * x := by
  rw [← sq_le_sq]
  constructor
  · intro hsq
    nlinarith
  · intro hsum
    nlinarith

theorem lower_nearer_iff (h : a < b) : |a - x| ≤ |b - x| ↔ 2 * x ≤ a + b := by
  rw [← sq_le_sq]
  constructor
  · intro hsq
    nlinarith
  · intro hsum
    nlinarith

end Distance

namespace Rounds
variable {x y : ℚ} {bits other : ℕ}

/-- The nearer one of the neighbours of `x`, the even one of both if `x` lies halfway. -/
theorem of_neighbours (floor : ℕ) (lower : value floor ≤ x) (upper : x < value (floor + 1))
    (near : bits = floor ∧ 2 * x ≤ value floor + value (floor + 1) ∨
      bits = floor + 1 ∧ value floor + value (floor + 1) ≤ 2 * x)
    (even : 2 * x = value floor + value (floor + 1) → bits % 2 = 0) : Rounds x bits := by
  have distBelow {other : ℕ} (h : other ≤ floor) : |value other - x| = x - value other := by
    have := value_strictMono.monotone h
    rw [abs_of_nonpos (by linarith), neg_sub]
  have distAbove {other : ℕ} (h : floor + 1 ≤ other) : |value other - x| = value other - x := by
    have := value_strictMono.monotone h
    exact abs_of_nonneg (by linarith)
  have hstep : value floor < value (floor + 1) := value_strictMono (Nat.lt_succ_self floor)
  have nearer : |value bits - x| ≤ |value floor - x| ∧ |value bits - x| ≤ |value (floor + 1) - x| := by
    rcases near with ⟨rfl, hx⟩ | ⟨rfl, hx⟩
    · exact ⟨le_rfl, (lower_nearer_iff hstep).mpr hx⟩
    · exact ⟨(upper_nearer_iff hstep).mpr hx, le_rfl⟩
  rw [distBelow le_rfl, distAbove le_rfl] at nearer
  constructor
  · intro other
    rcases Nat.lt_or_ge floor other with h | h
    · have := value_strictMono.monotone (Nat.succ_le_of_lt h)
      rw [distAbove h]
      linarith
    · have := value_strictMono.monotone h
      rw [distBelow h]
      linarith
  · intro other hne hdist
    rcases Nat.lt_or_ge floor other with h | h
    · have hle := value_strictMono.monotone (Nat.succ_le_of_lt h)
      rw [distAbove h] at hdist
      have same : other = floor + 1 := value_strictMono.injective (by linarith)
      have hbits : bits = floor := by omega
      rw [hbits, distBelow le_rfl, same] at hdist
      exact even (by linarith)
    · have hle := value_strictMono.monotone h
      rw [distBelow h] at hdist
      have same : other = floor := value_strictMono.injective (by linarith)
      have hbits : bits = floor + 1 := by omega
      rw [hbits, distAbove le_rfl, same] at hdist
      exact even (by linarith)

/-- The lower of two numbers is at least as near as the upper one. -/
theorem below_midpoint (h : Rounds x bits) (hlt : bits < other) :
    2 * x ≤ value bits + value other :=
  (lower_nearer_iff (value_strictMono hlt)).mp (h.nearest other)

theorem above_midpoint (h : Rounds x bits) (hlt : other < bits) :
    value other + value bits ≤ 2 * x :=
  (upper_nearer_iff (value_strictMono hlt)).mp (h.nearest other)

theorem even_of_midpoint (h : Rounds x bits) (hne : other ≠ bits)
    (hmid : value bits + value other = 2 * x) : bits % 2 = 0 := by
  apply h.even other hne
  have sides : value bits - x = -(value other - x) := by linarith
  rw [sides, abs_neg]

/-- Rounding keeps the order. -/
theorem mono (hx : Rounds x bits) (hy : Rounds y other) (hxy : x ≤ y) : bits ≤ other := by
  by_contra hlt
  have hlt : other < bits := Nat.lt_of_not_le hlt
  have hxmid := hx.above_midpoint hlt
  have hymid := hy.below_midpoint hlt
  -- Both ratios are the midpoint, so both patterns are even, with another one between them.
  have hbits : bits % 2 = 0 := hx.even_of_midpoint hlt.ne (by linarith)
  have hother : other % 2 = 0 := hy.even_of_midpoint hlt.ne' (by linarith)
  have between := hx.nearest (other + 1)
  have hlow := value_strictMono (Nat.lt_succ_self other)
  have hhigh : value (other + 1) < value bits := value_strictMono (by omega)
  rw [upper_nearer_iff hhigh] at between
  linarith

theorem unique (h : Rounds x bits) (h' : Rounds x other) : bits = other :=
  Nat.le_antisymm (h.mono h' le_rfl) (h'.mono h le_rfl)

/-- A number on the grid is rounded to itself. -/
theorem self (bits : ℕ) : Rounds (value bits) bits := by
  constructor
  · intro other
    rw [sub_self, abs_zero]
    exact abs_nonneg _
  · intro other hne hdist
    rw [sub_self, abs_zero] at hdist
    exact absurd (value_strictMono.injective (sub_eq_zero.mp (abs_eq_zero.mp hdist.symm))) hne

/-- Above an odd pattern, the midpoint itself goes up. -/
theorem le_iff_of_odd (h : Rounds x bits) (hodd : other % 2 = 1) :
    bits ≤ other ↔ 2 * x < value other + value (other + 1) := by
  have hstep : value other < value (other + 1) := value_strictMono (Nat.lt_succ_self other)
  constructor
  · intro hle
    have hmid := h.below_midpoint (Nat.lt_succ_of_le hle)
    have hval := value_strictMono.monotone hle
    by_contra hx
    have same : bits = other := value_strictMono.injective (by linarith)
    have heven : bits % 2 = 0 := h.even_of_midpoint (show other + 1 ≠ bits by omega) (by linarith)
    omega
  · intro hx
    by_contra hgt
    have hgt : other < bits := Nat.lt_of_not_le hgt
    have hmid := h.above_midpoint hgt
    have hval := value_strictMono.monotone (Nat.succ_le_of_lt hgt)
    linarith

/-- Above an even pattern, the midpoint itself goes down. -/
theorem le_iff_of_even (h : Rounds x bits) (heven : other % 2 = 0) :
    bits ≤ other ↔ 2 * x ≤ value other + value (other + 1) := by
  constructor
  · intro hle
    have hmid := h.below_midpoint (Nat.lt_succ_of_le hle)
    have hval := value_strictMono.monotone hle
    linarith
  · intro hx
    by_contra hgt
    have hgt : other < bits := Nat.lt_of_not_le hgt
    have hmid := h.above_midpoint hgt
    have hval := value_strictMono.monotone (Nat.succ_le_of_lt hgt)
    have same : bits = other + 1 := value_strictMono.injective (by linarith)
    have : bits % 2 = 0 := h.even_of_midpoint hgt.ne (by linarith)
    omega

end Rounds

/-- Where the ratio is rounded to on the unbounded grid. -/
def unboundedBits (num den : ℕ) : ℕ :=
  spacing num den * hiddenBit +
    roundHalfEven (num * Nat.pow 2 (1074 - spacing num den))
      (den * Nat.pow 2 (spacing num den - 1074))

theorem nearestBits_eq (num den : ℕ) :
    nearestBits num den = min (unboundedBits num den) infinityBits := rfl

/-- Rounding a ratio of naturals to an integer, compared with the ratio itself. -/
theorem roundHalfEven_cases (num den : ℕ) (h : 0 < den) :
    (roundHalfEven num den = num / den ∧ 2 * ((num : ℚ) / den) ≤ 2 * (num / den : ℕ) + 1 ∨
      roundHalfEven num den = num / den + 1 ∧ 2 * (num / den : ℕ) + 1 ≤ 2 * ((num : ℚ) / den)) ∧
    (2 * ((num : ℚ) / den) = 2 * (num / den : ℕ) + 1 → roundHalfEven num den % 2 = 0) := by
  have hden : (0 : ℚ) < den := Nat.cast_pos.mpr h
  have split : 2 * ((num : ℚ) / den) = 2 * (num / den : ℕ) + (2 * (num % den) : ℕ) / den := by
    have := congrArg (Nat.cast (R := ℚ)) (Nat.div_add_mod num den)
    push_cast at this ⊢
    field_simp
    linarith
  rw [split]
  simp only [add_le_add_iff_left, add_right_inj, div_le_one₀ hden, one_le_div₀ hden,
    div_eq_one_iff_eq hden.ne', Nat.cast_le, Nat.cast_inj]
  unfold roundHalfEven
  dsimp only
  split_ifs <;> omega

/-- A significand is rounded in units of its spacing. -/
theorem Normalized.rounds {q m r : ℕ} {y : ℚ} (h : Normalized q m) (lower : m ≤ y)
    (upper : y < m + 1) (near : r = m ∧ 2 * y ≤ 2 * m + 1 ∨ r = m + 1 ∧ 2 * m + 1 ≤ 2 * y)
    (even : 2 * y = 2 * m + 1 → r % 2 = 0) : Rounds (y * unit q) (q * hiddenBit + r) := by
  have hu := unit_pos q
  apply Rounds.of_neighbours (q * hiddenBit + m)
  · rw [h.value_eq]
    exact mul_le_mul_of_nonneg_right lower hu.le
  · rw [h.value_succ]
    exact mul_lt_mul_of_pos_right upper hu
  · rw [h.value_eq, h.value_succ]
    rcases near with ⟨rfl, hy⟩ | ⟨rfl, hy⟩
    · exact .inl ⟨rfl, by nlinarith⟩
    · exact .inr ⟨(Nat.add_assoc _ _ _).symm, by nlinarith⟩
  · rw [h.value_eq, h.value_succ]
    intro hmid
    have hr : r % 2 = 0 := even (mul_right_cancel₀ hu.ne' (by linarith))
    unfold hiddenBit
    omega

/-- A quotient that is normalized at a spacing is rounded there. -/
theorem Normalized.rounds_quotient {q num den : ℕ} (h : Normalized q (num / den)) (hden : 0 < den) :
    Rounds (num / den * unit q) (q * hiddenBit + roundHalfEven num den) := by
  have upper : (num / den : ℚ) < (num / den : ℕ) + 1 := by
    rw [div_lt_iff₀ (Nat.cast_pos.mpr hden), mul_comm]
    exact_mod_cast Nat.lt_mul_div_succ num hden
  obtain ⟨near, even⟩ := roundHalfEven_cases num den hden
  exact h.rounds Nat.cast_div_le upper near even

/-- With `k` binary places and the spacing `q`, one of the two factors is one; the quotient is the
same as with both powers in full. -/
theorem spacing_quotient (num den k q : ℕ) :
    num * Nat.pow 2 (k - q) / (den * Nat.pow 2 (q - k)) = num * Nat.pow 2 k / den / 2 ^ q := by
  simp only [Nat.pow_eq]
  have hnum : num * 2 ^ (k - q) * 2 ^ min k q = num * 2 ^ k := by
    rw [Nat.mul_assoc, ← pow_add]
    congr 2
    omega
  have hden : den * 2 ^ (q - k) * 2 ^ min k q = den * 2 ^ q := by
    rw [Nat.mul_assoc, ← pow_add]
    congr 2
    omega
  rw [Nat.div_div_eq_div_mul, ← hnum, ← hden, Nat.mul_div_mul_right _ _ (Nat.two_pow_pos _)]

theorem normalized_log2 (units : ℕ) :
    Normalized (units.log2 - 52) (units / 2 ^ (units.log2 - 52)) := by
  have hhidden : hiddenBit = 2 ^ 52 := rfl
  have hlog : units < 2 ^ (units.log2 + 1) := Nat.lt_log2_self
  constructor
  · rw [Nat.div_lt_iff_lt_mul (Nat.two_pow_pos _), hhidden, ← pow_succ', ← pow_add]
    exact hlog.trans_le (Nat.pow_le_pow_right (by decide) (by omega))
  · by_cases hq : units.log2 - 52 = 0
    · exact .inl hq
    · right
      have hne : units ≠ 0 := by
        rintro rfl
        simp at hq
      rw [hhidden, Nat.le_div_iff_mul_le (Nat.two_pow_pos _), ← pow_add,
        Nat.add_sub_cancel' (by omega)]
      exact Nat.log2_self_le hne

/-- The significand at the spacing of a ratio is normalized. -/
theorem normalized_quotient (num den k q : ℕ) (hq : q = (num * Nat.pow 2 k / den).log2 - 52) :
    Normalized q (num * Nat.pow 2 (k - q) / (den * Nat.pow 2 (q - k))) := by
  rw [spacing_quotient, hq]
  exact normalized_log2 _

theorem spacing_ratio (num den k q : ℕ) (h : 0 < den) :
    (num : ℚ) / den =
      (num * Nat.pow 2 (k - q) : ℕ) / (den * Nat.pow 2 (q - k) : ℕ) * (2 ^ q / 2 ^ k) := by
  simp only [Nat.pow_eq]
  have hden : (den : ℚ) ≠ 0 := Nat.cast_ne_zero.mpr h.ne'
  have hpow : (2 : ℚ) ^ (k - q) * 2 ^ q = 2 ^ (q - k) * 2 ^ k := by
    rw [← pow_add, ← pow_add]
    congr 1
    omega
  push_cast
  field_simp
  rw [mul_assoc, mul_assoc, hpow]

theorem rounds_unboundedBits (num den : ℕ) (h : 0 < den) :
    Rounds (num / den) (unboundedBits num den) := by
  unfold unboundedBits spacing
  generalize hk : 1074 = k
  generalize hq : Nat.log2 (num * Nat.pow 2 k / den) - 52 = q
  have normalized := normalized_quotient num den k q hq.symm
  have ratio := spacing_ratio num den k q h
  rw [← hk, ← unit, hk] at ratio
  rw [ratio]
  exact normalized.rounds_quotient (Nat.mul_pos h (Nat.two_pow_pos _))

end SlotPacking.Binary64
