import SlotPacking.Binary64.Conversion
import SlotPacking.Proofs.FloatArithmetic
import SlotPacking.Proofs.PowersOfTen
import SlotPacking.Proofs.ScaleValues

/-!
The conversion of a ratio gives the number nearest to it. The quotient of the
shifted terms has enough bits that rounding off the spare ones rounds the ratio
itself, and moving the exponent does not round a second time: the product that
makes a number subnormal is exact.
-/
namespace SlotPacking

namespace Binary64

section BitLength
variable {n k : ℕ}

theorem bitLength_le_iff : bitLength n ≤ k ↔ n < 2 ^ k := by
  unfold bitLength
  split
  next h => simp [h]
  next h => rw [Nat.succ_le_iff, Nat.log2_lt h]

theorem lt_bitLength_iff : k < bitLength n ↔ 2 ^ k ≤ n := by
  rw [← not_iff_not, not_lt, not_le, bitLength_le_iff]

theorem lt_two_pow_bitLength (n : ℕ) : n < 2 ^ bitLength n := bitLength_le_iff.mp le_rfl

theorem bitLength_pos (h : 0 < n) : 0 < bitLength n := lt_bitLength_iff.mpr h

theorem two_pow_le_of_bitLength (h : 0 < n) : 2 ^ (bitLength n - 1) ≤ n :=
  lt_bitLength_iff.mp (Nat.sub_one_lt (bitLength_pos h).ne')

theorem mul_two_pow_lt_mul {m i j : ℕ} (h : 0 < n) (hlen : bitLength m + i < bitLength n + j) :
    m * 2 ^ i < n * 2 ^ j :=
  calc m * 2 ^ i < 2 ^ bitLength m * 2 ^ i :=
        Nat.mul_lt_mul_of_pos_right (lt_two_pow_bitLength m) (Nat.two_pow_pos i)
    _ = 2 ^ (bitLength m + i) := (pow_add _ _ _).symm
    _ ≤ 2 ^ (bitLength n - 1 + j) := Nat.pow_le_pow_right (by decide) (by omega)
    _ = 2 ^ (bitLength n - 1) * 2 ^ j := pow_add _ _ _
    _ ≤ n * 2 ^ j := Nat.mul_le_mul_right _ (two_pow_le_of_bitLength h)

end BitLength

/-- Rounding the last bits of a quotient off, with the remainder behind them, rounds the ratio. -/
theorem roundOff_eq (num : ℕ) {den : ℕ} (h : 0 < den) (k : ℕ) :
    roundOff (num / den) (num % den) (k + 1) = roundHalfEven num (den * 2 ^ (k + 1)) := by
  have parts : num % (den * 2 ^ (k + 1)) =
      den * 2 ^ k * (num / den / 2 ^ k % 2) + (den * (num / den % 2 ^ k) + num % den) := by
    rw [Nat.mod_mul, pow_succ, Nat.mod_mul]
    ring
  have rest : den * (num / den % 2 ^ k) + num % den < den * 2 ^ k := by
    have := Nat.mul_le_mul_left den (Nat.mod_lt (num / den) (Nat.two_pow_pos k))
    have := Nat.mod_lt num h
    rw [Nat.mul_succ] at *
    omega
  have nothing : den * (num / den % 2 ^ k) + num % den = 0 ↔
      num / den % 2 ^ k = 0 ∧ num % den = 0 := by
    rw [Nat.add_eq_zero_iff, Nat.mul_eq_zero, or_iff_right h.ne']
  have double : den * 2 ^ (k + 1) = 2 * (den * 2 ^ k) := by
    rw [pow_succ]
    ring
  unfold roundOff roundHalfEven
  simp only [Nat.pow_eq, Nat.add_sub_cancel, ← not_and_or, ← nothing, parts,
    ← Nat.div_div_eq_div_mul, ne_eq]
  rw [double]
  generalize den * (num / den % 2 ^ k) + num % den = behind at *
  generalize den * 2 ^ k = half at *
  generalize num / den / 2 ^ (k + 1) = q
  rcases Nat.mod_two_eq_zero_or_one (num / den / 2 ^ k) with hbit | hbit
  · rw [hbit, Nat.mul_zero, if_neg (by omega), if_pos (by omega)]
  · rw [hbit, Nat.mul_one]
    split_ifs <;> omega

theorem value_fields {e f : ℕ} (he : 0 < e) (hf : f < hiddenBit) :
    value (e * hiddenBit + f) = (hiddenBit + f : ℕ) * 2 ^ ((e : ℤ) - 1075) := by
  have normalized : Normalized (e - 1) (hiddenBit + f) := ⟨by omega, .inr (Nat.le_add_right _ _)⟩
  have place : e * hiddenBit + f = (e - 1) * hiddenBit + (hiddenBit + f) := by
    rw [← Nat.add_assoc, ← Nat.succ_mul, Nat.succ_eq_add_one, Nat.sub_add_cancel he]
  rw [place, normalized.value_eq, unit_eq_zpow]
  congr 2
  omega

theorem value_power {e : ℕ} (he : 0 < e) : value (e * hiddenBit) = 2 ^ ((e : ℤ) - 1023) := by
  have hidden : (hiddenBit : ℚ) = 2 ^ (52 : ℤ) := by norm_num [hiddenBit]
  have fields := value_fields he (f := 0) (by decide)
  rw [Nat.add_zero, Nat.add_zero] at fields
  rw [fields, hidden, ← zpow_add₀ two_ne_zero]
  congr 1
  ring

section Exponent
variable {x : Float} {e : ℤ} {exponent f : ℕ}

theorem toBits_infinity : infinity.toBits.toNat = infinityBits := toBits_ofBits le_rfl

theorem value_two_pow_neg :
    (nearest 1 (Nat.pow 2 53)).toBits.toNat < infinityBits ∧
      value (nearest 1 (Nat.pow 2 53)).toBits.toNat = 2 ^ (-53 : ℤ) := by
  have bits : nearestBits 1 (Nat.pow 2 53) = 970 * hiddenBit := by decide +kernel
  rw [toBits_nearest, bits, value_power (by decide)]
  exact ⟨by decide, rfl⟩

theorem toBits_withExponent {bits : ℕ} (h : exponent < 2047) :
    (withExponent bits exponent).toBits.toNat = exponent * hiddenBit + bits % hiddenBit := by
  apply toBits_ofBits
  unfold infinityBits hiddenBit
  omega

/-- A normal number is scaled as if there were no greatest exponent, and rounded once where it
becomes subnormal. -/
theorem toBits_scaleByTwo (hx : x.toBits.toNat = exponent * hiddenBit + f) (hf : f < hiddenBit)
    (hpos : 0 < exponent) (hmax : exponent < 2047) (hlow : -53 < exponent + e) (he : -3072 ≤ e)
    (he' : e ≤ 3072) : ∃ bits, Rounds (value x.toBits.toNat * 2 ^ e) bits ∧
      (scaleByTwo x e).toBits.toNat = min bits infinityBits := by
  have finite : x.toBits.toNat < infinityBits := by
    unfold infinityBits hiddenBit at *
    omega
  have nonzero : (x == 0) = false := by
    rw [← Bool.not_eq_true, beq_zero_iff finite]
    unfold hiddenBit at *
    omega
  have field : exponentField x.toBits.toNat = exponent := by
    unfold exponentField hiddenBit at *
    omega
  have fraction : x.toBits.toNat % hiddenBit = f := by
    unfold hiddenBit at *
    omega
  have moved {e' : ℕ} {d : ℤ} (h : 0 < e') (hd : (e' : ℤ) = exponent + d) :
      value (e' * hiddenBit + f) = value x.toBits.toNat * 2 ^ d := by
    rw [hx, value_fields h hf, value_fields hpos hf, mul_assoc, ← zpow_add₀ two_ne_zero, hd]
    congr 2
    ring
  simp only [scaleByTwo, nonzero, isFinite_of_lt finite, field, hpos.ne', Bool.not_true,
    Bool.or_self, Bool.false_eq_true, if_false, if_neg he.not_gt, if_neg he'.not_gt,
    sub_zero]
  -- Above the greatest exponent and inside the range the moved pattern stands for the value itself,
  -- so it is the one that rounds it; below the range the product with the power of two rounds.
  split_ifs with hover hnormal hsub
  · have h : 0 < (exponent + e).toNat := by omega
    refine ⟨_, moved h (d := e) (by omega) ▸ Rounds.self _, ?_⟩
    rw [toBits_infinity, Nat.min_eq_right]
    unfold infinityBits hiddenBit
    omega
  · have h : 0 < (exponent + e).toNat := by omega
    refine ⟨_, moved h (d := e) (by omega) ▸ Rounds.self _, ?_⟩
    rw [toBits_withExponent (by omega), fraction, Nat.min_eq_left]
    unfold infinityBits hiddenBit at *
    omega
  · have h : 0 < (exponent + e + 53).toNat := by omega
    obtain ⟨finite', hvalue⟩ := value_two_pow_neg
    have hbits := @toBits_withExponent (exponent + e + 53).toNat x.toBits.toNat (by omega)
    rw [fraction] at hbits
    have below : (withExponent x.toBits.toNat (exponent + e + 53).toNat).toBits.toNat <
        infinityBits := by
      rw [hbits]
      unfold infinityBits hiddenBit at *
      omega
    obtain ⟨bits, rounds, hproduct⟩ := toBits_mul below finite'
    rw [hbits, moved h (d := e + 53) (by omega), hvalue, mul_assoc, ← zpow_add₀ two_ne_zero,
      add_neg_cancel_right] at rounds
    exact ⟨bits, rounds, hproduct⟩
  · omega

end Exponent

section Ratio
variable {num den : ℕ} {s : ℤ}

/-- The shifted terms have a quotient of 55 or 56 bits, or of fewer if it is to become subnormal;
without its spare bits it is a significand at its spacing. -/
theorem exists_spare {N D : ℕ} (hnum : 0 < num) (hden : 0 < den)
    (hs : s = max ((bitLength num : ℤ) - bitLength den) (-1021) - 55)
    (hN : N = num * 2 ^ (-s).toNat) (hD : D = den * 2 ^ s.toNat) : ∃ k q : ℕ, k < 3 ∧
      (max (bitLength (N / D) : ℤ) (-1021 - s) - 53).toNat = k + 1 ∧
      (q : ℤ) = (k + 1 : ℕ) + s + 1074 ∧ Normalized q (N / (D * 2 ^ (k + 1))) := by
  have hD0 : 0 < D := hD ▸ Nat.mul_pos hden (Nat.two_pow_pos _)
  have upper {j : ℕ} (h : (bitLength num : ℤ) + (-s).toNat < bitLength den + s.toNat + j) :
      bitLength (N / D) ≤ j := by
    rw [bitLength_le_iff, Nat.div_lt_iff_lt_mul hD0, hN, hD, Nat.mul_left_comm, ← pow_add]
    exact mul_two_pow_lt_mul hden (by omega)
  have lower {j : ℕ} (h : (bitLength den : ℤ) + s.toNat + j < bitLength num + (-s).toNat) :
      j < bitLength (N / D) := by
    rw [lt_bitLength_iff, Nat.le_div_iff_mul_le hD0, hN, hD, Nat.mul_left_comm, ← pow_add]
    exact (mul_two_pow_lt_mul hnum (by omega)).le
  have small {k : ℕ} (h : bitLength (N / D) ≤ k + 53) : N / (D * 2 ^ k) < 2 * hiddenBit := by
    rw [← Nat.div_div_eq_div_mul, Nat.div_lt_iff_lt_mul (Nat.two_pow_pos k)]
    exact (bitLength_le_iff.mp h).trans_eq (by rw [pow_add, Nat.mul_comm]; rfl)
  have large {k : ℕ} (h : k + 52 < bitLength (N / D)) : hiddenBit ≤ N / (D * 2 ^ k) := by
    rw [← Nat.div_div_eq_div_mul, Nat.le_div_iff_mul_le (Nat.two_pow_pos k)]
    exact (show hiddenBit * 2 ^ k = 2 ^ (k + 52) by rw [pow_add, Nat.mul_comm]; rfl).trans_le
      (lt_bitLength_iff.mp h)
  -- Below the normal numbers the spacing is the least, and one bit is spare however short the
  -- quotient; elsewhere the quotient is 54 bits or more and gives the spacing itself.
  rcases lt_or_ge ((bitLength num : ℤ) - bitLength den) (-1021) with h | h
  · have := @upper 55 (by omega)
    exact ⟨1, 0, by omega, by omega, by omega, small (by omega), .inl rfl⟩
  · have := @upper 56 (by omega)
    have := @lower 54 (by omega)
    exact ⟨bitLength (N / D) - 54, (bitLength (N / D) + s + 1021).toNat, by omega, by omega,
      by omega, small (by omega), .inr (large (by omega))⟩

/-- The quotient of the shifted terms, in units of the spacing. -/
theorem shifted_ratio {k q : ℕ} (hq : (q : ℤ) = k + s + 1074) :
    ((num * 2 ^ (-s).toNat : ℕ) / (den * 2 ^ s.toNat * 2 ^ k : ℕ) * unit q : ℚ) = num / den := by
  have power : (2 : ℚ) ^ (-s).toNat * 2 ^ ((q : ℤ) - 1074) = 2 ^ s.toNat * 2 ^ k := by
    rw [← zpow_natCast, ← zpow_natCast, ← zpow_natCast, ← zpow_add₀ two_ne_zero,
      ← zpow_add₀ two_ne_zero]
    congr 1
    omega
  rw [unit_eq_zpow]
  push_cast
  rw [div_mul_eq_mul_div, mul_assoc, power, mul_assoc, mul_div_mul_right _ _ (by positivity)]

/-- A rounded quotient stands on the grid, where it may be the first number of the next spacing. -/
theorem value_roundHalfEven {q : ℕ} (h : Normalized q (num / den)) (hden : 0 < den) :
    value (q * hiddenBit + roundHalfEven num den) = roundHalfEven num den * unit q ∧
      roundHalfEven num den ≤ 2 * hiddenBit ∧ (roundHalfEven num den = 0 → q = 0) := by
  have hlt := h.lt
  obtain ⟨⟨hr, -⟩ | ⟨hr, -⟩, -⟩ := roundHalfEven_cases num den hden
  · rw [hr]
    refine ⟨h.value_eq, hlt.le, fun hzero => h.full.resolve_right ?_⟩
    rw [hzero]
    decide
  · rw [hr, ← Nat.add_assoc, h.value_succ]
    exact ⟨by push_cast; rfl, hlt, fun hzero => absurd hzero (Nat.succ_ne_zero _)⟩

theorem value_nearest_mul {m k : ℕ} (hm : m ≤ 2 * hiddenBit) (hk : k ≤ 3) :
    (nearest (m * 2 ^ k) 1).toBits.toNat < infinityBits ∧
      value (nearest (m * 2 ^ k) 1).toBits.toNat = m * 2 ^ k := by
  have size : ((m * 2 ^ k : ℕ) : ℚ) ≤ 2 ^ 970 := by
    have room : m * 2 ^ k ≤ 2 ^ 53 * 2 ^ 3 :=
      Nat.mul_le_mul hm (Nat.pow_le_pow_right (by decide) hk)
    rw [← pow_add] at room
    exact_mod_cast room.trans (Nat.pow_le_pow_right (by decide) (by decide))
  obtain ⟨rounds, finite⟩ := rounds_nearest (lt_overflow size)
  obtain ⟨bits, hbits⟩ := exists_value_eq (1074 + k) hm
  have grid : OnGrid (m * 2 ^ k : ℕ) := ⟨bits, by rw [hbits, unit_add]; push_cast; rfl⟩
  refine ⟨finite, (rounds.value_of_onGrid grid).trans ?_⟩
  push_cast
  rfl

/-- A significand with spare zeros behind it is brought to its spacing. -/
theorem toBits_placed {m k q : ℕ} (hm : m ≤ 2 * hiddenBit) (hpos : 0 < k) (hk : k ≤ 3)
    (hq : (q : ℤ) = k + s + 1074) (hs : -1076 ≤ s) (hs' : s ≤ 969)
    (hvalue : value (q * hiddenBit + m) = m * unit q) (hzero : m = 0 → q = 0) :
    (scaleByTwo (nearest (m * 2 ^ k) 1) s).toBits.toNat = min (q * hiddenBit + m) infinityBits := by
  obtain ⟨finite, hx⟩ := value_nearest_mul hm hk
  rcases Nat.eq_zero_or_pos m with rfl | hm0
  · have bits : (nearest (0 * 2 ^ k) 1).toBits.toNat = 0 := by
      apply value_strictMono.injective
      rw [hx, value_zero, Nat.cast_zero, zero_mul]
    rw [hzero rfl, scaleByTwo, (beq_zero_iff finite).mpr bits, Bool.true_or, if_pos rfl, bits]
    rfl
  · generalize nearest (m * 2 ^ k) 1 = x at *
    -- With a spare zero behind it the number is two or more, so that no shift here takes its
    -- exponent out of the range in which the last product rounds only once.
    have atLeastTwo : value (1024 * hiddenBit) ≤ value x.toBits.toNat := by
      have two : (2 : ℚ) ≤ m * 2 ^ k := by
        exact_mod_cast Nat.mul_le_mul hm0 (Nat.pow_le_pow_right two_pos hpos)
      rw [value_power (by decide), hx]
      exact le_of_eq_of_le (by norm_num) two
    have above := value_strictMono.le_iff_le.mp atLeastTwo
    have field : 1024 ≤ x.toBits.toNat / hiddenBit ∧ x.toBits.toNat / hiddenBit < 2047 := by
      unfold infinityBits hiddenBit at *
      omega
    have fields := (Nat.div_add_mod' x.toBits.toNat hiddenBit).symm
    obtain ⟨bits, rounds, hbits⟩ := toBits_scaleByTwo (e := s) fields
      (Nat.mod_lt _ (by decide)) (by omega) field.2 (by omega) (by omega) (by omega)
    have exact : value x.toBits.toNat * 2 ^ s = value (q * hiddenBit + m) := by
      rw [hx, hvalue, unit_eq_zpow, mul_assoc, ← zpow_natCast, ← zpow_add₀ two_ne_zero]
      congr 2
      omega
    rw [exact] at rounds
    rw [hbits, rounds.unique (Rounds.self _)]

/-- The pattern on the unbounded grid next to a ratio, found with the spare bits of its quotient. -/
theorem unboundedBits_of_shifted {k q : ℕ} (hden : 0 < den) (hq : (q : ℤ) = k + s + 1074)
    (h : Normalized q (num * 2 ^ (-s).toNat / (den * 2 ^ s.toNat * 2 ^ k))) :
    unboundedBits num den = q * hiddenBit +
      roundHalfEven (num * 2 ^ (-s).toNat) (den * 2 ^ s.toNat * 2 ^ k) := by
  have positive : 0 < den * 2 ^ s.toNat * 2 ^ k := by positivity
  have rounds := h.rounds_quotient positive
  rw [shifted_ratio hq] at rounds
  exact (rounds_unboundedBits num den hden).unique rounds

end Ratio

section Conversion
variable {num den : ℕ}

/-- Integers that are numbers themselves are divided in floating point. -/
theorem toBits_div_nearest (hnum : num ≤ 2 * hiddenBit) (hden : den ≤ 2 * hiddenBit)
    (h : 0 < den) : (nearest num 1 / nearest den 1).toBits.toNat = nearestBits num den := by
  obtain ⟨finite, hx⟩ := value_nearest_mul (k := 0) hnum (by decide)
  obtain ⟨finite', hy⟩ := value_nearest_mul (k := 0) hden (by decide)
  simp only [pow_zero, mul_one] at finite hx finite' hy
  have nonzero : (nearest den 1).toBits.toNat ≠ 0 := by
    intro hzero
    rw [hzero, value_zero] at hy
    exact h.ne (Nat.cast_injective (R := ℚ) (hy.trans rfl).symm).symm
  obtain ⟨bits, rounds, hbits⟩ := toBits_div finite finite' nonzero
  rw [hx, hy] at rounds
  rw [hbits, rounds.unique (rounds_unboundedBits num den h)]
  rfl

theorem toBits_nearest_of_longer (hnum : 0 < num) (hden : 0 < den)
    (h : bitLength den + 1024 < bitLength num) :
    (nearest num den).toBits.toNat = infinityBits := by
  apply toBits_nearest_of_ge hden
  have large := (mul_two_pow_lt_mul (i := 1024) (j := 0) hnum h).le
  have margin : (0 : ℚ) ≤ 2 ^ 970 * den := by positivity
  generalize 1024 = i at *
  generalize 970 = j at *
  have cast : (den * 2 ^ i : ℚ) ≤ num := by exact_mod_cast large.trans_eq (Nat.mul_one num)
  rw [le_div_iff₀ (Nat.cast_pos.mpr hden), sub_mul]
  linarith

theorem toBits_nearest_of_shorter (hden : 0 < den) (h : bitLength num + 1075 < bitLength den) :
    (nearest num den).toBits.toNat = 0 := by
  have small := (mul_two_pow_lt_mul (i := 1075) (j := 0) hden h).le
  rw [toBits_nearest_eq_zero_iff hden, div_le_div_iff₀ (Nat.cast_pos.mpr hden) (by positivity)]
  generalize 1075 = i at *
  rw [one_mul]
  exact_mod_cast small.trans_eq (Nat.mul_one den)

/-- The conversion of a ratio rounds it. -/
theorem ofRatio_eq_nearest (hden : 0 < den) : ofRatio num den = nearest num den := by
  apply Float.toBits_inj.mp
  apply UInt64.toNat_inj.mp
  simp only [ofRatio, Nat.pow_eq]
  split_ifs with hzero hexact hlonger hshorter
  · have zero : (nearest num den).toBits.toNat = 0 := by
      rw [toBits_nearest_eq_zero_iff hden, hzero, Nat.cast_zero, zero_div]
      positivity
    rw [zero]
    rfl
  · rw [toBits_div_nearest hexact.1 hexact.2 hden, toBits_nearest]
  · rw [toBits_infinity, toBits_nearest_of_longer (Nat.pos_of_ne_zero hzero) hden (by omega)]
  · rw [toBits_nearest_of_shorter hden (by omega)]
    rfl
  · generalize hs : max ((bitLength num : ℤ) - bitLength den) (-1021) - 55 = s
    obtain ⟨k, q, hk, hspare, hq, normalized⟩ :=
      exists_spare (Nat.pos_of_ne_zero hzero) hden hs.symm rfl rfl
    have positive : 0 < den * 2 ^ s.toNat := by positivity
    have positive' : 0 < den * 2 ^ s.toNat * 2 ^ (k + 1) := by positivity
    obtain ⟨hvalue, hle, least⟩ := value_roundHalfEven normalized positive'
    rw [hspare, roundOff_eq _ positive, toBits_placed hle (Nat.succ_pos k) hk hq (by omega)
      (by omega) hvalue least, toBits_nearest, nearestBits_eq,
      unboundedBits_of_shifted hden hq normalized]

end Conversion
end Binary64

namespace Scale

theorem toFloat_eq_nearest (a : Scale) : a.toFloat = Binary64.nearest a.num a.den :=
  Binary64.ofRatio_eq_nearest a.den_pos

/-- The floating-point number of a scale is correctly rounded. From the midpoint above the greatest
finite number on it is infinite. Below it is the nearest finite number, with the even significand at
a tie, and no other number than zero shares this. Up to half the least positive number it is the
zero of positive sign, and below the least normal number it is the nearest multiple of the least
positive one. A greater scale has no smaller number. -/
theorem toFloat_rounds (s : Scale) :
    (2 ^ 1024 - 2 ^ 970 ≤ s.value → s.toFloat.toBits.toNat = 0x7ff0000000000000) ∧
    (s.value < 2 ^ 1024 - 2 ^ 970 → Binary64.IsNearest s.toFloat s.value ∧
      (s.toFloat.toBits.toNat ≠ 0 → ∀ y, Binary64.IsNearest y s.value → y = s.toFloat)) ∧
    (s.toFloat.toBits.toNat = 0 ↔ s.value ≤ 1 / 2 ^ 1075) ∧
    (s.value < 1 / 2 ^ 1022 → ∃ m : ℕ, Binary64.exactValue s.toFloat = m / 2 ^ 1074 ∧
      ∀ k : ℕ, |m / 2 ^ 1074 - s.value| ≤ |k / 2 ^ 1074 - s.value|) ∧
    ∀ t : Scale, s.value ≤ t.value → s.toFloat ≤ t.toFloat := by
  rw [toFloat_eq_nearest s]
  refine ⟨Binary64.toBits_nearest_of_ge s.den_pos, fun hlt => ⟨?_, fun hne y => ?_⟩,
    Binary64.toBits_nearest_eq_zero_iff s.den_pos, Binary64.nearest_of_subnormal s.den_pos,
    fun t => ?_⟩
  · exact Binary64.isNearest_nearest s.den_pos hlt
  · exact Binary64.eq_nearest s.den_pos hlt hne
  · rw [toFloat_eq_nearest t]
    exact Binary64.nearest_mono s.den_pos t.den_pos

/-- The two edges: where the results become infinite, and where they become zero. -/
theorem toFloat_rounds_at_edges :
    ((ofNat (2 ^ 54 - 1)).times (pow2 970)).toFloat.toBits.toNat = 0x7ff0000000000000 ∧
    ((ofNat 1).quotient (2 ^ 1075) (pow_pos two_pos 1075)).toFloat.toBits.toNat = 0 ∧
    Binary64.IsNearest (ofNat 1).toFloat 1 := by
  refine ⟨(toFloat_rounds _).1 ?_, (toFloat_rounds _).2.2.1.mpr ?_, ?_⟩
  · rw [value_times, value_pow2, value_ofNat, Binary64.two_pow_1024]
    generalize (2 : ℚ) ^ 970 = p
    norm_num
    linarith
  · have power (k : ℕ) : ((ofNat 1).quotient (2 ^ k) (pow_pos two_pos k)).value = 1 / 2 ^ k := by
      rw [value_quotient, value_ofNat, Nat.cast_one, Nat.cast_pow, Nat.cast_two]
    exact (power 1075).le
  · have one : (ofNat 1).value = 1 := by rw [value_ofNat, Nat.cast_one]
    have threshold : (1 : ℚ) < 2 ^ 1024 - 2 ^ 970 := Binary64.lt_overflow (one_le_pow₀ one_le_two)
    have nearest := ((toFloat_rounds (ofNat 1)).2.1 (one ▸ threshold)).1
    rwa [one] at nearest

end Scale
end SlotPacking
