import SlotPacking.Json.Numeral
import SlotPacking.Proofs.FloatArithmetic
import SlotPacking.Proofs.ShortestDigits

/-!
Reading numerals. The digits and a power of ten give a binary64 number with one
product or quotient, or with two quotients where the power is too small for one.
-/
namespace SlotPacking.Json.Numeral
open Binary64

section Scaling
variable {x : Float} {m k bits : ℕ} {e : ℤ}

theorem powersOfTen_getElem (hk : k < 309) : powersOfTen[k] = nearest (tenPow k) 1 :=
  Vector.getElem_ofFn hk

theorem scaleByTen_natCast (hk : k < 309)
    (hfinite : (x * nearest (tenPow k) 1).toBits.toNat < infinityBits) :
    scaleByTen x k = some (x * nearest (tenPow k) 1) := by
  have small : (k : ℤ).natAbs < 309 := hk
  have power : powersOfTen[(k : ℤ).natAbs] = nearest (tenPow k) 1 := powersOfTen_getElem hk
  rw [scaleByTen, dif_pos small, if_pos k.cast_nonneg, power]
  dsimp only
  rw [isInf_eq_false hfinite]
  rfl

theorem scaleByTen_neg (hk : k < 309) (hpos : 0 < k) :
    scaleByTen x (-k) = some (x / nearest (tenPow k) 1) := by
  have hsize : (-k : ℤ).natAbs = k := by omega
  have power : powersOfTen[(-k : ℤ).natAbs] = nearest (tenPow k) 1 := by
    simp only [hsize]
    exact powersOfTen_getElem hk
  rw [scaleByTen, dif_pos (by omega), if_neg (by omega), power]

/-- Exponents below the least one at hand need another quotient. -/
theorem scaleByTen_below (hk : 0 < k) : scaleByTen x (-(k + 308 : ℕ)) =
    if x == 0 then some x else scaleByTen (x / nearest (tenPow 308) 1) (-k) := by
  have large : ¬ (-(k + 308 : ℕ) : ℤ).natAbs < 309 := by omega
  have negative : ¬ (0 : ℤ) ≤ -(k + 308 : ℕ) := by omega
  have power : powersOfTen[308] = nearest (tenPow 308) 1 := powersOfTen_getElem _
  have rest : (-(k + 308 : ℕ) : ℤ) + 308 = -k := by omega
  rw [scaleByTen, dif_neg large, if_neg negative, power, rest]

/-- Digits and a power of ten give a finite number at most two steps away from the pattern, and the
pattern itself where digits and power are binary64 numbers. -/
def Scales (m : ℕ) (e : ℤ) (bits : ℕ) : Prop :=
  ∃ y, scaleByTen (nearest m 1) e = some y ∧ y.toBits.toNat < infinityBits ∧
    TwoSteps bits y.toBits.toNat ∧ (OnGrid m → e.natAbs ≤ 22 → y.toBits.toNat = bits)

theorem rounds_digits (hm : m < 10 ^ 17) :
    Rounds m (nearest m 1).toBits.toNat ∧ (nearest m 1).toBits.toNat < infinityBits := by
  apply rounds_nearest
  refine lt_of_lt_of_le ?_ (tenPow_lt (k := 17) (by decide)).le
  exact_mod_cast hm

theorem rounds_power (hk : k < 309) : Rounds (tenPow k) (nearest (tenPow k) 1).toBits.toNat ∧
    (nearest (tenPow k) 1).toBits.toNat < infinityBits :=
  rounds_nearest (tenPow_lt hk)

theorem power_ne_zero (hk : k < 309) : (nearest (tenPow k) 1).toBits.toNat ≠ 0 := by
  intro hzero
  have positive := (rounds_power hk).1.value_pos
  rw [hzero, value_zero] at positive
  exact positive.false

theorem scales_natCast (hm : m < 10 ^ 17) (hk : k < 309) (h : Rounds (m * tenPow k) bits)
    (hbits : bits + 2 < infinityBits) : Scales m k bits := by
  obtain ⟨hx, hxfinite⟩ := rounds_digits hm
  obtain ⟨hp, hpfinite⟩ := rounds_power hk
  obtain ⟨c, hc, product⟩ := toBits_mul hxfinite hpfinite
  have steps := (near_mul hx hp).twoSteps h hc
  have finite : c < infinityBits := steps.le.trans_lt hbits
  rw [Nat.min_eq_left finite.le] at product
  refine ⟨_, scaleByTen_natCast hk (product ▸ finite), product ▸ finite, product ▸ steps,
    fun hexact hsmall => ?_⟩
  rw [hx.value_of_onGrid hexact, hp.value_of_onGrid (onGrid_tenPow hsmall)] at hc
  rw [product, hc.unique h]

theorem scales_neg (hm : m < 10 ^ 17) (hk : k < 309) (hpos : 0 < k)
    (h : Rounds (m / tenPow k) bits) (hbits : bits + 2 < infinityBits) : Scales m (-k) bits := by
  obtain ⟨hx, hxfinite⟩ := rounds_digits hm
  obtain ⟨hp, hpfinite⟩ := rounds_power hk
  obtain ⟨c, hc, quotient⟩ := toBits_div hxfinite hpfinite (power_ne_zero hk)
  have steps := (near_div hx hp).twoSteps h hc
  have finite : c < infinityBits := steps.le.trans_lt hbits
  rw [Nat.min_eq_left finite.le] at quotient
  refine ⟨_, scaleByTen_neg hk hpos, quotient ▸ finite, quotient ▸ steps, fun hexact hsmall => ?_⟩
  rw [hx.value_of_onGrid hexact, hp.value_of_onGrid (onGrid_tenPow (by omega))] at hc
  rw [quotient, hc.unique h]

/-- Zero stays zero at every power. -/
theorem scales_zero (hx : (nearest m 1).toBits.toNat = 0) (hm : m < 10 ^ 17)
    (h : Rounds (m / tenPow k) bits) (he : scaleByTen (nearest m 1) e = some (nearest m 1)) :
    Scales m e bits := by
  have digits := (rounds_digits hm).1.within_natCast.le
  rw [hx, value_zero, mul_zero] at digits
  have hm : (m : ℚ) = 0 := le_antisymm digits m.cast_nonneg
  rw [hm, zero_div] at h
  obtain rfl := h.unique rounds_zero
  refine ⟨_, he, ?_, ?_, fun _ _ => hx⟩
  · rw [hx]
    decide
  · rw [hx]
    exact ⟨by decide, by decide⟩

theorem one_le_greatestPower {d : ℕ} (h : Rounds (tenPow 308) d) : 1 ≤ value d := by
  have size := (value_greatestPower h).2.1
  have power : (1 : ℚ) ≤ 2 ^ 1023 := one_le_pow₀ one_le_two
  generalize (2 : ℚ) ^ 1023 = p at *
  linarith

theorem scales_below (hm : m < 10 ^ 17) (hk : k ≤ 22) (hpos : 0 < k)
    (h : Rounds (m / tenPow (k + 308)) bits) (hbits : bits + 2 < infinityBits) :
    Scales m (-(k + 308 : ℕ)) bits := by
  have below := scaleByTen_below (x := nearest m 1) hpos
  obtain ⟨hx, hxfinite⟩ := rounds_digits hm
  split at below
  next hzero => exact scales_zero ((beq_zero_iff hxfinite).mp hzero) hm h below
  next =>
    obtain ⟨hp, hpfinite⟩ := rounds_power (k := 308) (by decide)
    obtain ⟨c, hc, first⟩ := toBits_div hxfinite hpfinite (power_ne_zero (by decide))
    have finite : c < infinityBits := by
      refine (hc.mono (Rounds.self _) ?_).trans_lt hxfinite
      exact div_le_self (value_nonneg _) (one_le_greatestPower hp)
    rw [Nat.min_eq_left finite.le] at first
    obtain ⟨hp', hpfinite'⟩ := rounds_power (show k < 309 by omega)
    obtain ⟨c', hc', second⟩ :=
      toBits_div (first ▸ finite) hpfinite' (power_ne_zero (show k < 309 by omega))
    -- The second power is exact, so the second quotient adds nothing but its own rounding.
    rw [first, hp'.value_of_onGrid (onGrid_tenPow hk)] at hc'
    have power : (tenPow (k + 308) : ℚ) = tenPow 308 * tenPow k := by
      rw [cast_tenPow, cast_tenPow, cast_tenPow, pow_add, mul_comm]
    rw [power, ← div_div] at h
    have one_le : (1 : ℚ) ≤ tenPow k := by
      rw [cast_tenPow]
      exact one_le_pow₀ (by norm_num)
    have steps := ((near_greatestPower hx hp hc).div one_le).twoSteps h hc'
    have finite' : c' < infinityBits := steps.le.trans_lt hbits
    rw [Nat.min_eq_left finite'.le] at second
    exact ⟨_, below.trans (scaleByTen_neg (by omega) hpos), second ▸ finite', second ▸ steps,
      fun _ hsmall => absurd hsmall (by omega)⟩

theorem scales (hrange : InRange m e) (h : Rounds (m * 10 ^ e) bits)
    (hbits : bits + 2 < infinityBits) : Scales m e bits := by
  obtain ⟨hm, hlow, hhigh⟩ := hrange
  rcases lt_or_ge e 0 with hneg | hnonneg
  · obtain ⟨k, rfl⟩ := Int.exists_eq_neg_ofNat hneg.le
    rw [zpow_neg, zpow_natCast, ← cast_tenPow, ← div_eq_mul_inv] at h
    by_cases hk : k < 309
    · exact scales_neg hm hk (by omega) h hbits
    · obtain ⟨j, rfl⟩ := Nat.exists_eq_add_of_le' (show 308 ≤ k by omega)
      exact scales_below hm (by omega) (by omega) h hbits
  · obtain ⟨k, rfl⟩ := Int.eq_ofNat_of_zero_le hnonneg
    rw [zpow_natCast, ← cast_tenPow] at h
    exact scales_natCast hm (by omega) h hbits

end Scaling

section Digits
variable {n : Numeral}

theorem le_foldl_digits (ds : List ℕ) (m : ℕ) : m ≤ ds.foldl (fun n d => n * 10 + d) m := by
  induction ds generalizing m with
  | nil => exact le_rfl
  | cons d ds ih => exact (by omega : m ≤ m * 10 + d).trans (ih _)

theorem extend_eq (ds : List ℕ) {m : ℕ} (h : ds.foldl (fun n d => n * 10 + d) m < Word.bound) :
    extend m ds = (ds.foldl (fun n d => n * 10 + d) m, []) := by
  induction ds generalizing m with
  | nil => rfl
  | cons d ds ih => rw [extend, if_pos ((le_foldl_digits ds _).trans_lt h), ih h, List.foldl_cons]

/-- Digits that fit a word are all read. -/
theorem significand_eq (h : n.mantissa < Word.bound) :
    n.significand = (n.mantissa, -(n.fraction.length : ℤ)) := by
  unfold mantissa ofDigits at h ⊢
  rw [List.foldl_append] at h ⊢
  rw [significand, extend_eq n.whole ((le_foldl_digits n.fraction _).trans_lt h)]
  dsimp only
  rw [extend_eq n.fraction h]
  simp

theorem magnitude?_eq (h : n.mantissa < Word.bound)
    (hsize : n.exponent = none ∨ (power n.exponent).natAbs < 0x80000000) :
    n.magnitude? = scaleByTen (nearest n.mantissa 1) n.place := by
  unfold magnitude? place
  rw [significand_eq h]
  cases hexponent : n.exponent with
  | none =>
    dsimp only [power]
    rw [zero_sub]
  | some exponent =>
    obtain ⟨negative, size⟩ := exponent
    rw [hexponent] at hsize
    dsimp only [power] at hsize ⊢
    have hlt : size < 0x80000000 := by
      cases negative <;> simp at hsize <;> exact hsize
    rw [if_pos hlt]
    congr 1
    cases negative <;> simp <;> ring

end Digits
end SlotPacking.Json.Numeral

namespace SlotPacking.Json
open Binary64 Numeral
variable {x y : Float}

/-- A finite number of the same sign whose pattern is at most two steps away. -/
structure WithinTwoSteps (x y : Float) : Prop where
  finite : y.isFinite = true
  sign : signBit ≤ x.toBits.toNat ↔ signBit ≤ y.toBits.toNat
  steps : TwoSteps x.toBits.toNat y.toBits.toNat

/-- A magnitude that is two steps away gives, with the sign, a number that is two steps away. -/
theorem WithinTwoSteps.of_magnitude {negative : Bool} (hx : x.isFinite = true)
    (hsign : signBit ≤ x.toBits.toNat ↔ negative = true) (finite : y.toBits.toNat < infinityBits)
    (steps : TwoSteps (x.toBits.toNat % signBit) y.toBits.toNat) :
    WithinTwoSteps x (if negative then -y else y) ∧
      (y.toBits.toNat = x.toBits.toNat % signBit → (if negative then -y else y) = x) := by
  have hlt : x.toBits.toNat < 2 * signBit := x.toBits.toNat_lt
  have same {z : Float} (hz : z.toBits.toNat = x.toBits.toNat) : z = x :=
    Float.toBits_inj.mp (UInt64.toNat_inj.mp hz)
  have hinf : infinityBits < signBit := by decide
  have hmod := isFinite_iff.mp hx
  obtain ⟨le, ge⟩ := steps
  split
  next hneg =>
    have sign := hsign.mpr hneg
    have magnitude : x.toBits.toNat = signBit + x.toBits.toNat % signBit := by
      unfold signBit at *
      omega
    have hy := toBits_neg finite
    refine ⟨⟨?_, by omega, by omega, by omega⟩, fun exact => same ?_⟩
    · rw [isFinite_iff, hy, Nat.add_mod_left, Nat.mod_eq_of_lt (finite.trans hinf)]
      exact finite
    · rw [hy, exact, ← magnitude]
  next hpos =>
    have magnitude := Nat.mod_eq_of_lt (Nat.lt_of_not_le (mt hsign.mp hpos))
    refine ⟨⟨isFinite_of_lt finite, by omega, by omega, by omega⟩, fun exact => same ?_⟩
    rw [exact, magnitude]

/-- Of long digits at a great exponent nothing but themselves is shown. -/
theorem shows_long {d : Decimal} {m : ℕ} {e : ℤ} (h : d.Shows .json m e)
    (hexponent : 16 < d.exponent) : m = d.digits ∧ e = d.exponent := by
  cases h with
  | digits => exact ⟨rfl, rfl⟩
  | whole _ hfits =>
    have limit : FloatStyle.json.greatestPositional = 15 := rfl
    omega

/-- The digits of the two greatest finite numbers are both read as the greatest one. -/
theorem scales_greatest {bits m : ℕ} {e : ℤ} (hbits : bits < infinityBits)
    (hge : infinityBits ≤ bits + 2) (h : (FloatStyle.json.decimal bits).Shows .json m e) :
    Scales m e bits := by
  have scales_of (digits : ℕ) (hdigits : (FloatStyle.json.decimal bits).digits = digits)
      (hexponent : (FloatStyle.json.decimal bits).exponent = (292 : ℕ))
      (product : (nearest digits 1 * nearest (tenPow 292) 1).toBits.toNat = infinityBits - 1) :
      Scales m e bits := by
    obtain ⟨rfl, rfl⟩ := shows_long h (by rw [hexponent]; decide)
    rw [hdigits, hexponent]
    refine ⟨_, scaleByTen_natCast (by decide) (by omega), by omega, by constructor <;> omega,
      fun _ hsmall => ?_⟩
    exact absurd hsmall (by decide)
  have cases : bits = infinityBits - 1 ∨ bits = infinityBits - 2 := by omega
  rcases cases with rfl | rfl
  · exact scales_of 17976931348623157 (by decide +kernel) (by decide +kernel)
      (by decide +kernel)
  · exact scales_of 17976931348623155 (by decide +kernel) (by decide +kernel)
      (by decide +kernel)

/-- The token of a finite number is read as a number near to it. -/
theorem numberToken_toFloat? (h : x.isFinite = true) :
    ∃ n y, Numeral.ofChars? (numberToken x).toList = some n ∧ n.toFloat? = some y ∧
      WithinTwoSteps x y ∧ (OnGrid n.mantissa → n.place.natAbs ≤ 22 → y = x) := by
  obtain ⟨n, hn, hsign, shows, hwidth⟩ := numberToken_shows h
  have hfinite := isFinite_iff.mp h
  have decimal := FloatStyle.json.decimal_inRange hfinite
  have range := shows.inRange le_rfl decimal
  have rounds := FloatStyle.json.rounds_decimal hfinite
  rw [← shows.value_eq] at rounds
  have scales : Scales n.mantissa n.place (x.toBits.toNat % signBit) := by
    -- Next to infinity, two steps could leave the finite numbers: those two are computed.
    rcases Nat.lt_or_ge (x.toBits.toNat % signBit + 2) infinityBits with hlow | hhigh
    · exact scales range rounds hlow
    · exact scales_greatest hfinite hhigh shows
  obtain ⟨y, hy, finite, steps, exact⟩ := scales
  have hsize : n.exponent = none ∨ (power n.exponent).natAbs < 0x80000000 := by
    refine hwidth.imp_right fun hwidth => ?_
    have width : (Nat.toDigits 10 (FloatStyle.json.decimal (x.toBits.toNat % signBit)).digits).length
        ≤ 17 := (Nat.length_toDigits_le_iff (by decide) (by decide)).mpr decimal.1
    obtain ⟨-, hlow, hhigh⟩ := range
    unfold place at hlow hhigh
    omega
  have magnitude := (magnitude?_eq (range.1.trans (by decide)) hsize).trans hy
  obtain ⟨near, same⟩ := WithinTwoSteps.of_magnitude h hsign.symm finite steps
  exact ⟨n, _, hn, by rw [toFloat?, magnitude, Option.map_some], near,
    fun hm he => same (exact hm he)⟩

end SlotPacking.Json
