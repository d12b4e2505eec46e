import SlotPacking.Proofs.FloatBits

/-!
Products and quotients of floating-point numbers. Both are found exactly, up to
what the bits behind the significand tell about the rest, and then rounded on the
grid of patterns; where the grid goes beyond the finite numbers, the result is
infinite.
-/
namespace SlotPacking.Binary64
open Float.Model Float.Model.UnpackedFloat

/-- The exact significands that a mantissa with its round and sticky bits can stand for. -/
def Describes (em : ExtendedMantissa) (y : ℚ) : Prop :=
  match em.roundBit, em.stickyBit with
  | false, false => y = em.mantissa
  | false, true => em.mantissa < y ∧ 2 * y < 2 * em.mantissa + 1
  | true, false => 2 * y = 2 * em.mantissa + 1
  | true, true => 2 * em.mantissa + 1 < 2 * y ∧ y < em.mantissa + 1

namespace Describes
variable {em : ExtendedMantissa} {y : ℚ}

theorem exact (m : ℕ) : Describes (.ofMantissaAndAccuracy m .exact) m := rfl

/-- What is left over in a division is compared with half of the divisor. -/
theorem quotient (num : ℕ) {den : ℕ} (h : 0 < den) : Describes
    (.ofMantissaAndAccuracy (num / den) (accuracyOfFraction (num % den) den)) (num / den) := by
  have hden : (0 : ℚ) < den := Nat.cast_pos.mpr h
  have split : (num / den : ℚ) = (num / den : ℕ) + (num % den : ℕ) / den := by
    have := congrArg (Nat.cast (R := ℚ)) (Nat.div_add_mod num den)
    push_cast at this ⊢
    field_simp
    linarith
  have rest : ((num % den : ℕ) / den : ℚ) < 1 :=
    (div_lt_one hden).mpr (Nat.cast_lt.mpr (Nat.mod_lt num h))
  rw [split]
  unfold accuracyOfFraction
  split_ifs with hzero
  · simp [Describes, ExtendedMantissa.ofMantissaAndAccuracy, hzero]
  have hpos : (0 : ℚ) < (num % den : ℕ) / den :=
    div_pos (Nat.cast_pos.mpr (Nat.pos_of_ne_zero hzero)) hden
  rcases lt_trichotomy (2 * (num % den)) den with hhalf | hhalf | hhalf
  · have below : 2 * ((num % den : ℕ) / den : ℚ) < 1 := by
      rw [← mul_div_assoc, div_lt_one hden]
      exact_mod_cast hhalf
    rw [compare_lt_iff_lt.mpr hhalf]
    constructor <;> dsimp only [ExtendedMantissa.ofMantissaAndAccuracy] <;> linarith
  · have middle : 2 * ((num % den : ℕ) / den : ℚ) = 1 := by
      rw [← mul_div_assoc, div_eq_one_iff_eq hden.ne']
      exact_mod_cast hhalf
    rw [compare_eq_iff_eq.mpr hhalf]
    dsimp only [Describes, ExtendedMantissa.ofMantissaAndAccuracy]
    linarith
  · have above : 1 < 2 * ((num % den : ℕ) / den : ℚ) := by
      rw [← mul_div_assoc, one_lt_div hden]
      exact_mod_cast hhalf
    rw [compare_gt_iff_gt.mpr hhalf]
    constructor <;> dsimp only [ExtendedMantissa.ofMantissaAndAccuracy] <;> linarith

/-- A shift by one place moves the last bit of the mantissa into the round bit. -/
theorem shiftRightOne (h : Describes em y) : Describes em.shiftRightOne (y / 2) := by
  obtain ⟨m, r, s⟩ := em
  have parts : (m : ℚ) = (m / 2 : ℕ) * 2 + (m % 2 : ℕ) := by
    exact_mod_cast (Nat.div_add_mod' m 2).symm
  rcases Nat.mod_two_eq_zero_or_one m with hbit | hbit <;> cases r <;> cases s <;>
    simp [Describes, ExtendedMantissa.shiftRightOne, hbit] at h parts ⊢
  all_goals
    first
    | linarith
    | exact ⟨by linarith, by linarith⟩

theorem shiftRight (h : Describes em y) (k : ℕ) : Describes (em >>> k) (y / 2 ^ k) := by
  change Describes (k.repeat ExtendedMantissa.shiftRightOne em) _
  induction k with
  | zero => simpa [Nat.repeat] using h
  | succ k ih =>
    rw [Nat.repeat, pow_succ, ← div_div]
    exact ih.shiftRightOne

theorem bounds (h : Describes em y) : em.mantissa ≤ y ∧ y < em.mantissa + 1 := by
  obtain ⟨m, r, s⟩ := em
  cases r <;> cases s <;> simp only [Describes] at h ⊢ <;> exact ⟨by linarith, by linarith⟩

/-- The two bits decide which neighbour is nearer, and that the even one is taken at a tie. -/
theorem roundedMantissa (h : Describes em y) :
    (em.roundedMantissa = em.mantissa ∧ 2 * y ≤ 2 * em.mantissa + 1 ∨
      em.roundedMantissa = em.mantissa + 1 ∧ 2 * em.mantissa + 1 ≤ 2 * y) ∧
    (2 * y = 2 * em.mantissa + 1 → em.roundedMantissa % 2 = 0) := by
  obtain ⟨m, r, s⟩ := em
  cases r <;> cases s <;>
    dsimp only [Describes, ExtendedMantissa.roundedMantissa, ExtendedMantissa.accuracy,
      Accuracy.roundToNearestEven] at h ⊢
  · exact ⟨.inl ⟨rfl, by linarith⟩, fun hmid => by linarith⟩
  · exact ⟨.inl ⟨rfl, h.2.le⟩, fun hmid => by linarith [h.2]⟩
  · refine ⟨?_, fun _ => by omega⟩
    rcases Nat.mod_two_eq_zero_or_one m with hbit | hbit
    · exact .inl ⟨by omega, h.le⟩
    · exact .inr ⟨by omega, h.ge⟩
  · exact ⟨.inr ⟨rfl, h.1.le⟩, fun hmid => by linarith [h.1]⟩

end Describes

theorem shiftRight_mantissa (em : ExtendedMantissa) (k : ℕ) :
    (em >>> k).mantissa = em.mantissa / 2 ^ k := by
  change (k.repeat ExtendedMantissa.shiftRightOne em).mantissa = _
  induction k with
  | zero => simp [Nat.repeat]
  | succ k ih =>
    rw [Nat.repeat, pow_succ, ← Nat.div_div_eq_div_mul, ← ih]
    rfl

section Rounding
variable {q m k : ℕ} {e : ℤ} {accuracy : Accuracy} {y : ℚ}

/-- A significand at its spacing is packed into its pattern, or into infinity. -/
theorem pack_finite (hn : Normalized q m) (hm : 0 < m) :
    (UnpackedFloat.pack Format.binary64 (.finite .positive m (q - 1074) hm)).toNat =
      min (q * hiddenBit + m) infinityBits := by
  obtain ⟨hlt, hfull⟩ := hn
  have biased : ((q : ℤ) - 1074 + Format.binary64.exponentBias +
      Format.binary64.mantissaBitsWithoutImplicit).toNat = q + 1 := by
    change ((q : ℤ) - 1074 + (1023 : ℕ) + (52 : ℕ)).toNat = q + 1
    omega
  have full : m.log2 + 1 = 53 ↔ hiddenBit ≤ m := by
    have order : m.log2 = 52 ↔ 2 ^ 52 ≤ m ∧ m < 2 ^ (52 + 1) := Nat.log2_eq_iff hm.ne'
    rw [pow_succ'] at order
    exact Nat.add_right_cancel_iff.trans (order.trans (and_iff_left hlt))
  simp only [UnpackedFloat.pack, biased]
  change (if 2048 ≤ q + 1 + 1 then joined .positive (-1#11) 0#52
    else if m.log2 + 1 = 53 then joined .positive (BitVec.ofNat 11 (q + 1)) (BitVec.ofNat 52 m)
    else joined .positive 0#11 (BitVec.ofNat 52 m)).toNat = _
  have fields (e : BitVec 11) (f : BitVec 52) :
      (joined .positive e f).toNat = e.toNat * hiddenBit + f.toNat := by
    rw [toNat_joined]
    exact congrArg (· + f.toNat) (Nat.zero_add _)
  split_ifs with hbig hnormal
  · have infinite : (joined .positive (-1#11) 0#52).toNat = infinityBits := rfl
    rw [infinite]
    unfold infinityBits hiddenBit at *
    omega
  · rw [full] at hnormal
    rw [fields, BitVec.toNat_ofNat, BitVec.toNat_ofNat]
    unfold infinityBits hiddenBit at *
    omega
  · rw [full] at hnormal
    rw [fields, BitVec.toNat_ofNat, BitVec.toNat_ofNat]
    unfold infinityBits hiddenBit at *
    omega

theorem targetExponent_eq (t : ℤ) : Format.binary64.targetExponent t = max (t - 53) (-1074) := rfl

theorem shiftToTargetExponent_eq (h : (max (m.log2 + e - 52) (-1074) - e).toNat = k) :
    shiftToTargetExponent Format.binary64 m e accuracy =
      (ExtendedMantissa.ofMantissaAndAccuracy m accuracy >>> k, e + k) := by
  have total : totalExponent m e - 53 = m.log2 + e - 52 := by
    unfold totalExponent
    omega
  rw [shiftToTargetExponent, targetExponent_eq, total, shiftToExponent, h]

/-- Where its exponent is small enough, a mantissa is shifted to its spacing. -/
theorem exists_spacing (h : e ≤ max (m.log2 + e - 52) (-1074)) :
    ∃ q k : ℕ, (max (m.log2 + e - 52) (-1074) - e).toNat = k ∧ e + k = q - 1074 ∧
      Normalized q (m / 2 ^ k) := by
  obtain ⟨k, hk⟩ := Int.eq_ofNat_of_zero_le (Int.sub_nonneg_of_le h)
  refine ⟨(e + k + 1074).toNat, k, by omega, by omega, ?_, ?_⟩
  · rw [Nat.div_lt_iff_lt_mul (Nat.two_pow_pos k)]
    calc m < 2 ^ (m.log2 + 1) := Nat.lt_log2_self
      _ ≤ 2 ^ (53 + k) := Nat.pow_le_pow_right (by decide) (by omega)
      _ = 2 * hiddenBit * 2 ^ k := pow_add 2 53 k
  · by_cases hq : (e + k + 1074).toNat = 0
    · exact .inl hq
    · have hlog : m.log2 = 52 + k := by omega
      have hm : m ≠ 0 := by
        rintro rfl
        rw [Nat.log2_zero] at hlog
        omega
      right
      rw [Nat.le_div_iff_mul_le (Nat.two_pow_pos k)]
      calc hiddenBit * 2 ^ k = 2 ^ m.log2 := by rw [hlog, pow_add]; rfl
        _ ≤ m := Nat.log2_self_le hm

theorem pack_zero_or_finite (hn : Normalized q m) :
    (UnpackedFloat.pack Format.binary64 (if h : m = 0 then .zero .positive
      else .finite .positive m (q - 1074) (Nat.pos_of_ne_zero h))).toNat =
      min (q * hiddenBit + m) infinityBits := by
  split_ifs with hm
  · subst hm
    obtain rfl : q = 0 := hn.full.resolve_right (by decide)
    rfl
  · exact pack_finite hn _

/-- A rounded mantissa is at its spacing, or it is used up and goes on with the next one. -/
theorem pack_rounded (hn : Normalized q m ∨ m = 2 * hiddenBit) (he : e = q - 1074) :
    (UnpackedFloat.pack Format.binary64
      (let (em, exponent) := shiftToTargetExponent Format.binary64 m e .exact
      if h : em.mantissa = 0 then .zero .positive
      else .finite .positive em.mantissa exponent (Nat.pos_of_ne_zero h))).toNat =
      min (q * hiddenBit + m) infinityBits := by
  subst he
  rcases hn with hn | rfl
  · have hlog : m.log2 ≤ 52 := by
      by_cases hm : m = 0
      · simp [hm]
      · exact Nat.le_of_lt_succ ((Nat.log2_lt hm).mpr hn.lt)
    have stays : (max ((m.log2 : ℤ) + (q - 1074) - 52) (-1074) - (q - 1074)).toNat = 0 := by omega
    rw [shiftToTargetExponent_eq stays, Nat.cast_zero, add_zero]
    exact pack_zero_or_finite hn
  · have moves : (max (((2 * hiddenBit).log2 : ℤ) + (q - 1074) - 52) (-1074) - (q - 1074)).toNat =
        1 := by
      have hlog : (2 * hiddenBit).log2 = 53 := by decide
      omega
    have next : Normalized (q + 1) hiddenBit := ⟨by decide, .inr le_rfl⟩
    have carried : (q : ℤ) - 1074 + (1 : ℕ) = (q + 1 : ℕ) - 1074 := by omega
    have place : (q + 1) * hiddenBit + hiddenBit = q * hiddenBit + 2 * hiddenBit := by ring
    rw [shiftToTargetExponent_eq moves, ← place, carried]
    exact pack_zero_or_finite next

/-- The result of an operation is on the unbounded grid next to the exact one. -/
theorem pack_roundWithAccuracy (hy : Describes (.ofMantissaAndAccuracy m accuracy) y)
    (he : e ≤ max (m.log2 + e - 52) (-1074)) :
    ∃ bits, Rounds (y * 2 ^ e) bits ∧ (UnpackedFloat.pack Format.binary64
      (roundWithAccuracy Format.binary64 .positive m e accuracy)).toNat = min bits infinityBits := by
  obtain ⟨q, k, hk, hq, normalized⟩ := exists_spacing he
  have shifted := hy.shiftRight k
  have mantissa : (ExtendedMantissa.ofMantissaAndAccuracy m accuracy >>> k).mantissa = m / 2 ^ k := by
    rw [shiftRight_mantissa]
    cases accuracy with
    | exact => rfl
    | inexact o => cases o <;> rfl
  have exact : y * 2 ^ e = y / 2 ^ k * unit q := by
    have hunit : unit q = 2 ^ e * 2 ^ k := by
      rw [← zpow_natCast (2 : ℚ) k, ← zpow_add₀ two_ne_zero, hq, unit_eq_zpow]
    rw [hunit]
    field_simp
  rw [roundWithAccuracy, shiftToTargetExponent_eq hk, exact]
  generalize ExtendedMantissa.ofMantissaAndAccuracy m accuracy >>> k = em at *
  obtain ⟨lower, upper⟩ := shifted.bounds
  obtain ⟨near, even⟩ := shifted.roundedMantissa
  rw [mantissa] at lower upper near even
  refine ⟨_, normalized.rounds lower upper near even, pack_rounded ?_ hq⟩
  -- Rounded up, the mantissa may be used up.
  obtain ⟨hlt, hfull⟩ := normalized
  rcases near with ⟨hr, -⟩ | ⟨hr, -⟩
  · exact .inl (hr ▸ ⟨hlt, hfull⟩)
  · by_cases hcarry : m / 2 ^ k + 1 = 2 * hiddenBit
    · exact .inr (hr.trans hcarry)
    · exact .inl (hr ▸ ⟨by omega, hfull.imp_right (by omega)⟩)

end Rounding

section Operations
variable {x y : Float}

theorem toBits_mul_eq (x y : Float) : (x * y).toBits.toNat =
    (UnpackedFloat.pack Format.binary64
      (UnpackedFloat.mul Format.binary64 x.toModel.unpack y.toModel.unpack)).toNat := rfl

theorem toBits_div_eq (x y : Float) : (x / y).toBits.toNat =
    (UnpackedFloat.pack Format.binary64
      (UnpackedFloat.div Format.binary64 x.toModel.unpack y.toModel.unpack)).toNat := rfl

/-- A finite pattern of positive sign is zero or a significand at its spacing. -/
theorem unpack_finite (h : x.toBits.toNat < infinityBits) :
    x.toBits.toNat = 0 ∧ x.toModel.unpack = .zero .positive ∨
    ∃ q m hm, Normalized q m ∧ value x.toBits.toNat = m * 2 ^ ((q : ℤ) - 1074) ∧
      x.toModel.unpack = .finite .positive m (q - 1074) hm := by
  rcases unpack_magnitude h.le with hzero | ⟨-, q, m, hm, hn, hx, ux⟩ | ⟨hinf, -⟩
  · exact .inl hzero
  · refine .inr ⟨q, m, hm, hn, ?_, ux⟩
    rw [hx, hn.value_eq, unit_eq_zpow]
  · omega

theorem isInf_eq_false (h : x.toBits.toNat < infinityBits) : x.isInf = false := by
  change x.toModel.unpack.isInf = false
  rcases unpack_finite h with ⟨-, ux⟩ | ⟨_, _, _, -, -, ux⟩ <;> rw [ux] <;> rfl

/-- Of the numbers of positive sign, only zero is equal to zero. -/
theorem beq_zero_iff (h : x.toBits.toNat < infinityBits) :
    (x == 0) = true ↔ x.toBits.toNat = 0 := by
  change x.toModel.unpack.beq (.zero .positive) = true ↔ _
  rcases unpack_finite h with ⟨hzero, ux⟩ | ⟨q, m, hm, -, hval, ux⟩
  · rw [ux, hzero]
    exact iff_of_true rfl rfl
  · have hne : x.toBits.toNat ≠ 0 := by
      intro hzero
      rw [hzero, value_zero] at hval
      exact absurd hval (by positivity)
    rw [ux]
    exact iff_of_false Bool.false_ne_true hne

theorem neg_ofFields (e : BitVec 11) (m : BitVec 52) :
    (ofFields .positive e m).neg = ofFields .negative e m := by
  unfold ofFields
  split_ifs <;> rfl

/-- A change of sign keeps the magnitude. -/
theorem toBits_neg (h : x.toBits.toNat < infinityBits) :
    (-x).toBits.toNat = signBit + x.toBits.toNat := by
  obtain ⟨e, m, hbits, hx⟩ := exists_positive_fields h.le
  have number : ¬ @isNaNBits Format.binary64 (joined .negative e m) := by
    rw [isNaNBits, unpackExponent_packComponents]
    simp only [decide_eq_true_eq, not_and]
    rintro rfl
    have hmax : (-1#11).toNat = 2047 := rfl
    rw [hmax] at hbits
    unfold infinityBits hiddenBit at *
    omega
  have flipped : (-x).toBits.toBitVec = joined .negative e m := by
    change UnpackedFloat.pack Format.binary64 x.toModel.unpack.neg = _
    rw [hx, neg_ofFields, ← unpack_joined]
    exact (@pack_unpack Format.binary64 _ (by decide)).trans (if_neg number)
  have fields : (-x).toBits.toNat = (joined .negative e m).toNat := congrArg BitVec.toNat flipped
  rw [fields, toNat_joined, hbits]
  change 1 * signBit + _ + _ = _
  omega

theorem rounds_zero : Rounds 0 0 := by
  have := Rounds.self 0
  rwa [value_zero] at this

/-- A product with a full significand has a full significand. -/
theorem mul_spacing {q q' m m' : ℕ} (hn : Normalized q m) (hn' : Normalized q' m') (hm : 0 < m)
    (hm' : 0 < m') : ((q : ℤ) - 1074) + (q' - 1074) ≤
      max ((m * m').log2 + (((q : ℤ) - 1074) + (q' - 1074)) - 52) (-1074) := by
  by_cases hq : q = 0 ∧ q' = 0
  · omega
  · have full : 2 ^ 52 ≤ m * m' := by
      rcases not_and_or.mp hq with h | h
      · exact (hn.full.resolve_left h).trans (Nat.le_mul_of_pos_right m hm')
      · exact (hn'.full.resolve_left h).trans (Nat.le_mul_of_pos_left m' hm)
    have hlog : 52 ≤ (m * m').log2 := (Nat.le_log2 (Nat.mul_pos hm hm').ne').mpr full
    omega

/-- The product of two finite numbers of positive sign is rounded on the grid. -/
theorem toBits_mul (hx : x.toBits.toNat < infinityBits) (hy : y.toBits.toNat < infinityBits) :
    ∃ bits, Rounds (value x.toBits.toNat * value y.toBits.toNat) bits ∧
      (x * y).toBits.toNat = min bits infinityBits := by
  rw [toBits_mul_eq]
  rcases unpack_finite hx with ⟨hzero, ux⟩ | ⟨q, m, hm, hn, hval, ux⟩
  · refine ⟨0, ?_, ?_⟩
    · rw [hzero, value_zero, zero_mul]
      exact rounds_zero
    · rcases unpack_finite hy with ⟨-, uy⟩ | ⟨_, _, _, -, -, uy⟩ <;> rw [ux, uy] <;> rfl
  rcases unpack_finite hy with ⟨hzero, uy⟩ | ⟨q', m', hm', hn', hval', uy⟩
  · refine ⟨0, ?_, ?_⟩
    · rw [hzero, value_zero, mul_zero]
      exact rounds_zero
    · rw [ux, uy]
      rfl
  obtain ⟨bits, rounds, hbits⟩ :=
    pack_roundWithAccuracy (Describes.exact (m * m')) (mul_spacing hn hn' hm hm')
  refine ⟨bits, ?_, ?_⟩
  · have product : value x.toBits.toNat * value y.toBits.toNat =
        (m * m' : ℕ) * 2 ^ (((q : ℤ) - 1074) + (q' - 1074)) := by
      rw [hval, hval', zpow_add₀ two_ne_zero]
      push_cast
      ring
    rwa [product]
  · rw [ux, uy, ← hbits]
    rfl

/-- A quotient that does not reach down to the least spacing has a full significand. -/
theorem div_spacing {m m' : ℕ} {e e' t : ℤ} (hm : m ≠ 0) (hm' : 0 < m')
    (ht : t = min (e - e') (max (m.log2 + e - (m'.log2 + e') - 53) (-1074))) :
    t ≤ max ((m <<< (e - e' - t).toNat / m').log2 + t - 52) (-1074) := by
  obtain ⟨k, hk⟩ := Int.eq_ofNat_of_zero_le (Int.sub_nonneg_of_le (ht.le.trans (min_le_left _ _)))
  have hshift : (e - e' - t).toNat = k := by omega
  rw [hshift, Nat.shiftLeft_eq]
  by_cases hlow : t ≤ -1074
  · omega
  · have hlog : m'.log2 + 53 ≤ m.log2 + k := by omega
    have full : 2 ^ 52 ≤ m * 2 ^ k / m' := by
      rw [Nat.le_div_iff_mul_le hm']
      calc 2 ^ 52 * m' ≤ 2 ^ 52 * 2 ^ (m'.log2 + 1) := Nat.mul_le_mul_left _ Nat.lt_log2_self.le
        _ = 2 ^ (m'.log2 + 53) := by rw [← pow_add]; congr 1; omega
        _ ≤ 2 ^ (m.log2 + k) := Nat.pow_le_pow_right (by decide) hlog
        _ = 2 ^ m.log2 * 2 ^ k := pow_add _ _ _
        _ ≤ m * 2 ^ k := Nat.mul_le_mul_right _ (Nat.log2_self_le hm)
    have : 52 ≤ (m * 2 ^ k / m').log2 :=
      (Nat.le_log2 (Nat.ne_of_gt ((Nat.two_pow_pos 52).trans_le full))).mpr full
    omega

/-- The quotient of two finite numbers of positive sign is rounded on the grid. -/
theorem toBits_div (hx : x.toBits.toNat < infinityBits) (hy : y.toBits.toNat < infinityBits)
    (hne : y.toBits.toNat ≠ 0) : ∃ bits,
      Rounds (value x.toBits.toNat / value y.toBits.toNat) bits ∧
      (x / y).toBits.toNat = min bits infinityBits := by
  rw [toBits_div_eq]
  rcases unpack_finite hy with ⟨hzero, -⟩ | ⟨q', m', hm', -, hval', uy⟩
  · exact absurd hzero hne
  rcases unpack_finite hx with ⟨hzero, ux⟩ | ⟨q, m, hm, -, hval, ux⟩
  · refine ⟨0, ?_, ?_⟩
    · rw [hzero, value_zero, zero_div]
      exact rounds_zero
    · rw [ux, uy]
      rfl
  rw [ux, uy, hval, hval']
  generalize (q : ℤ) - 1074 = e
  generalize (q' : ℤ) - 1074 = e'
  -- The dividend is shifted until the quotient has a full significand or the least spacing.
  obtain ⟨t, ht⟩ : ∃ t, t = min (e - e') (max (m.log2 + e - (m'.log2 + e') - 53) (-1074)) :=
    ⟨_, rfl⟩
  have total : totalExponent m e - totalExponent m' e' = m.log2 + e - (m'.log2 + e') := by
    unfold totalExponent
    omega
  have core : divCore Format.binary64 m e m' e' =
      (m <<< (e - e' - t).toNat / m', t,
        accuracyOfFraction (m <<< (e - e' - t).toNat % m') m') := by
    rw [divCore, targetExponent_eq, total, ← ht]
  obtain ⟨bits, rounds, hbits⟩ := pack_roundWithAccuracy
    (Describes.quotient (m <<< (e - e' - t).toNat) hm') (div_spacing hm.ne' hm' ht)
  refine ⟨bits, ?_, ?_⟩
  · have shift : (2 : ℚ) ^ (e - e' - t).toNat * 2 ^ t = 2 ^ e / 2 ^ e' := by
      rw [← zpow_natCast, ← zpow_add₀ two_ne_zero, ← zpow_sub₀ two_ne_zero]
      congr 1
      omega
    have quotient : (m : ℚ) * 2 ^ e / (m' * 2 ^ e') =
        (m <<< (e - e' - t).toNat : ℕ) / m' * 2 ^ t := by
      rw [Nat.shiftLeft_eq, mul_div_mul_comm, ← shift]
      push_cast
      ring
    rwa [quotient]
  · rw [← hbits]
    change (UnpackedFloat.pack Format.binary64 (let (m, e, accuracy) := divCore Format.binary64 m e m' e'
      roundWithAccuracy Format.binary64 .positive m e accuracy)).toNat = _
    rw [core]

end Operations
end SlotPacking.Binary64
