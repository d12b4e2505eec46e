import Mathlib.Algebra.Order.Field.Basic
import Mathlib.Algebra.Order.Field.Rat
import Mathlib.Data.Nat.Cast.Field
import Mathlib.Data.Rat.Lemmas
import Mathlib.Tactic.FieldSimp
import SlotPacking.Proofs.Levels

/-!
Scales as rationals. A scale is determined by its value, and every operation on
scales is the operation on their values, so the scales of a circuit follow from
field arithmetic on the moduli.
-/
namespace SlotPacking
open Result

namespace Fraction
variable {a b : Fraction}

/-- The rational that a fraction denotes. -/
def value (a : Fraction) : ℚ := a.num / a.den

/-- A common divisor cancels. -/
theorem cast_div_div {m n g : ℕ} (hg : 0 < g) (hm : g ∣ m) (hn : g ∣ n) :
    ((m / g : ℕ) : ℚ) / (n / g : ℕ) = m / n := by
  have hne : (g : ℚ) ≠ 0 := Nat.cast_ne_zero.mpr hg.ne'
  rw [Nat.cast_div hm hne, Nat.cast_div hn hne, div_div_div_cancel_right₀ hne]

@[simp] theorem value_reduce (a : Fraction) : a.reduce.value = a.value := by
  rw [reduce_eq]
  exact cast_div_div (Nat.gcd_pos_of_pos_right _ a.den_pos) (Nat.gcd_dvd_left _ _)
    (Nat.gcd_dvd_right _ _)

@[simp] theorem value_ofNat (n : ℕ) : (ofNat n).value = n := by simp [value, ofNat]

@[simp] theorem value_times (a b : Fraction) : (a.times b).value = a.value * b.value := by
  have left : ((a.num / a.num.gcd b.den : ℕ) : ℚ) / (b.den / a.num.gcd b.den : ℕ) =
      a.num / b.den :=
    cast_div_div (Nat.gcd_pos_of_pos_right _ b.den_pos) (Nat.gcd_dvd_left _ _)
      (Nat.gcd_dvd_right _ _)
  have right : ((b.num / a.den.gcd b.num : ℕ) : ℚ) / (a.den / a.den.gcd b.num : ℕ) =
      b.num / a.den :=
    cast_div_div (Nat.gcd_pos_of_pos_left _ a.den_pos) (Nat.gcd_dvd_right _ _)
      (Nat.gcd_dvd_left _ _)
  simp only [value, times, Nat.cast_mul]
  rw [mul_comm ((a.den / _ : ℕ) : ℚ), mul_div_mul_comm, left, right, div_mul_div_comm,
    mul_comm (b.den : ℚ), ← div_mul_div_comm]

@[simp] theorem value_quotient (a b : Fraction) (h : 0 < b.num) :
    (a.quotient b h).value = a.value / b.value := by
  have nums : ((a.num / a.num.gcd b.num : ℕ) : ℚ) / (b.num / a.num.gcd b.num : ℕ) =
      a.num / b.num :=
    cast_div_div (Nat.gcd_pos_of_pos_right _ h) (Nat.gcd_dvd_left _ _) (Nat.gcd_dvd_right _ _)
  have dens : ((b.den / a.den.gcd b.den : ℕ) : ℚ) / (a.den / a.den.gcd b.den : ℕ) =
      b.den / a.den :=
    cast_div_div (Nat.gcd_pos_of_pos_left _ a.den_pos) (Nat.gcd_dvd_right _ _)
      (Nat.gcd_dvd_left _ _)
  rw [quotient, value_reduce]
  simp only [value, Nat.cast_mul]
  rw [mul_comm ((a.den / _ : ℕ) : ℚ), mul_div_mul_comm, nums, dens, div_mul_div_comm,
    mul_comm (b.num : ℚ), ← div_div_div_eq]

/-- The order of fractions is that of the rationals. -/
theorem compare_eq_value (a b : Fraction) : a.compare b = Ord.compare a.value b.value := by
  have ha : (0 : ℚ) < a.den := Nat.cast_pos.mpr a.den_pos
  have hb : (0 : ℚ) < b.den := Nat.cast_pos.mpr b.den_pos
  rw [compare_eq_cross]
  rcases lt_trichotomy (a.num * b.den) (b.num * a.den) with h | h | h
  · have hv : a.value < b.value := (div_lt_div_iff₀ ha hb).mpr (by exact_mod_cast h)
    rw [compare_lt_iff_lt.mpr h, compare_lt_iff_lt.mpr hv]
  · have hv : a.value = b.value := (div_eq_div_iff ha.ne' hb.ne').mpr (by exact_mod_cast h)
    rw [compare_eq_iff_eq.mpr h, compare_eq_iff_eq.mpr hv]
  · have hv : b.value < a.value := (div_lt_div_iff₀ hb ha).mpr (by exact_mod_cast h)
    rw [compare_gt_iff_gt.mpr h, compare_gt_iff_gt.mpr hv]

end Fraction

namespace Scale
variable {a b : Scale}

/-- The rational that a scale stands for. -/
def value (a : Scale) : ℚ := a.num / a.den

theorem value_reduce (num den : Nat) (h : 0 < den) : (reduce num den h).value = num / den :=
  Fraction.value_reduce ⟨num, den, h⟩

@[simp] theorem value_ofNat (n : Nat) : (ofNat n).value = n := Fraction.value_ofNat n

@[simp] theorem value_pow2 (bits : Nat) : (pow2 bits).value = 2 ^ bits := by
  rw [pow2, value_ofNat]
  exact Nat.cast_pow 2 bits

@[simp] theorem value_times (a b : Scale) : (a.times b).value = a.value * b.value :=
  Fraction.value_times a.toFraction b.toFraction

@[simp] theorem value_quotient (a : Scale) (n : Nat) (h : 0 < n) :
    (a.quotient n h).value = a.value / n := by
  have quotient := Fraction.value_quotient a.toFraction (.ofNat n) h
  rwa [Fraction.value_ofNat] at quotient

theorem value_pos : 0 < a.value ↔ a.IsPositive := by
  have hd : (0 : ℚ) < a.den := Nat.cast_pos.mpr a.den_pos
  rw [value, div_pos_iff_of_pos_right hd, Nat.cast_pos]
  rfl

/-- Scales of one value are the same, since they are in lowest terms. -/
theorem value_injective (h : a.value = b.value) : a = b := by
  have ha : (0 : ℤ) < a.den := Int.natCast_pos.mpr a.den_pos
  have hb : (0 : ℤ) < b.den := Int.natCast_pos.mpr b.den_pos
  have h : ((a.num : ℤ) : ℚ) / ((a.den : ℤ) : ℚ) = ((b.num : ℤ) : ℚ) / ((b.den : ℤ) : ℚ) := by
    simpa only [value, Int.cast_natCast] using h
  obtain ⟨hn, hd⟩ := Rat.div_int_inj (a := a.num) (c := b.num) ha hb a.lowest b.lowest h
  exact ext_num_den (Int.ofNat_inj.mp hn) (Int.ofNat_inj.mp hd)

end Scale

namespace PrimeChain
variable {chain : PrimeChain} {level p : Nat}

/-- The modulus at a level as a rational; zero where the chain has none. -/
def modulus (chain : PrimeChain) (level : Nat) : ℚ := chain.primes.getD (level - 1) 0

theorem atLevel_modulus (h : chain.atLevel level = .ok p) :
    0 < level ∧ level ≤ chain.length ∧ chain.modulus level = p := by
  obtain ⟨hpos, hp⟩ := atLevel_eq_ok.mp h
  have hlt := (Array.getElem?_eq_some_iff.mp hp).1
  refine ⟨hpos, ?_, ?_⟩
  · unfold length
    omega
  · rw [modulus, Array.getD_eq_getD_getElem?, hp, Option.getD_some]

theorem matrixPrimes_modulus {high low : Nat} (h : chain.matrixPrimes level = .ok (high, low)) :
    2 ≤ level ∧ level ≤ chain.length ∧ chain.modulus level = high ∧
      chain.modulus (level - 1) = low := by
  obtain ⟨h2, hhigh, hlow⟩ := matrixPrimes_eq_ok.mp h
  obtain ⟨-, hl, hh⟩ := atLevel_modulus hhigh
  exact ⟨h2, hl, hh, (atLevel_modulus hlow).2.2⟩

end PrimeChain

namespace Metadata
variable {a b : Metadata} {chain : PrimeChain}

theorem value_pos (a : Metadata) : 0 < a.scale.value := Scale.value_pos.mpr a.scale_pos

/-- Metadata is determined by the value of its scale and its level. -/
theorem ext_value (hs : a.scale.value = b.scale.value) (hl : a.level = b.level) : a = b :=
  Metadata.ext (Scale.value_injective hs) hl

/-- A rescale divides by the modulus of its level. -/
theorem rescale_value (h : a.rescale chain = .ok b) : 2 ≤ a.level ∧ a.level ≤ chain.length ∧
    b.level + 1 = a.level ∧ b.scale.value = a.scale.value / chain.modulus a.level := by
  have hlevel := rescale_level h
  have hpos := b.level_pos
  unfold rescale at h
  split at h
  next => simp at h
  next =>
    obtain ⟨p, hp, h⟩ := bind_eq_ok.mp h
    obtain ⟨scale, hscale, h⟩ := bind_eq_ok.mp h
    obtain ⟨-, -, hs, -⟩ := new_eq_ok.mp h
    obtain ⟨-, hl, hmodulus⟩ := PrimeChain.atLevel_modulus hp
    refine ⟨by omega, hl, hlevel, ?_⟩
    unfold Scale.divPrime at hscale
    split at hscale
    next hp =>
      obtain rfl := Except.ok.inj hscale
      rw [hs, Scale.value_quotient, hmodulus]
    next => simp at hscale

/-- A squaring squares the scale and divides it by the two moduli from its level down. -/
theorem square_value (h : a.square chain = .ok b) : b.level + 2 = a.level ∧
    b.scale.value =
      a.scale.value ^ 2 / (chain.modulus a.level * chain.modulus (a.level - 1)) := by
  obtain ⟨product, hproduct, h⟩ := bind_eq_ok.mp h
  obtain ⟨once, honce, h⟩ := bind_eq_ok.mp h
  obtain ⟨-, hscale, hlevel⟩ := multiply_eq_ok.mp hproduct
  obtain ⟨-, -, hl1, hs1⟩ := rescale_value honce
  obtain ⟨-, -, hl2, hs2⟩ := rescale_value h
  have honcelevel : once.level = a.level - 1 := by omega
  refine ⟨by omega, ?_⟩
  rw [hs2, hs1, hscale, Scale.value_times, hlevel, honcelevel, div_div, sq]

end Metadata

/-- The circuit of a grid keeps the scale of its products, whatever the grid. -/
theorem linearMetadata_eq (input weights : Metadata) (babyCount giantCount : Nat)
    (chain : PrimeChain) : linearMetadata input weights babyCount giantCount chain =
      (do (← input.multiply weights).rescale chain) := by
  simp only [linearMetadata, Metadata.afterRotation, Metadata.sumOfCopies_eq, ok_bind]

/-- With weights at the moduli of the level and below, one rescale leaves the lower modulus. -/
theorem linearMetadata_value {input weights out : Metadata} {babyCount giantCount : Nat}
    {chain : PrimeChain}
    (h : linearMetadata input weights babyCount giantCount chain = .ok out)
    (hw : weights.scale.value = chain.modulus input.level * chain.modulus (input.level - 1)) :
    out.level + 1 = input.level ∧
      out.scale.value = input.scale.value * chain.modulus (input.level - 1) := by
  rw [linearMetadata_eq] at h
  obtain ⟨product, hproduct, h⟩ := bind_eq_ok.mp h
  obtain ⟨-, hscale, hlevel⟩ := Metadata.multiply_eq_ok.mp hproduct
  obtain ⟨-, -, hl, hs⟩ := Metadata.rescale_value h
  have hne : chain.modulus input.level ≠ 0 := by
    intro h0
    have := weights.value_pos
    rw [hw, h0, zero_mul] at this
    exact lt_irrefl _ this
  refine ⟨by omega, ?_⟩
  rw [hs, hscale, Scale.value_times, hw, hlevel]
  field_simp

end SlotPacking
