import SlotPacking.Proofs.FloatBits

/-!
The floating-point number nearest to a ratio, up to the point from which on the
result is infinite, with ties to the even significand. It is the nearest of all
finite numbers, and it grows with the ratio.
-/
namespace SlotPacking.Binary64
open Float.Model Float.Model.UnpackedFloat

/-- The rational that an unpacked number stands for. Infinities and NaNs stand for none. -/
def unpackedValue : UnpackedFloat → ℚ
  | .finite .positive m e _ => m * 2 ^ e
  | .finite .negative m e _ => -(m * 2 ^ e)
  | _ => 0

/-- The rational that a finite number stands for. -/
def exactValue (x : Float) : ℚ := unpackedValue x.toModel.unpack

/-- No finite number is nearer to `r`, and where another one is as near, this one has the even
significand. The last bit of a pattern is that of the significand. -/
structure IsNearest (x : Float) (r : ℚ) : Prop where
  finite : x.isFinite = true
  nearest : ∀ y : Float, y.isFinite = true → |exactValue x - r| ≤ |exactValue y - r|
  even : ∀ y : Float, y.isFinite = true → y ≠ x →
    |exactValue x - r| = |exactValue y - r| → x.toBits.toNat % 2 = 0

theorem unit_add (k : ℕ) : unit (1074 + k) = 2 ^ k := by
  rw [unit, pow_add, mul_div_cancel_left₀ _ (by positivity)]

theorem two_pow_1024 : (2 : ℚ) ^ 1024 = 2 ^ 54 * 2 ^ 970 := by rw [← pow_add]

/-- A rational that is well below the midpoint above the finite numbers. -/
theorem lt_overflow {r : ℚ} (h : r ≤ 2 ^ 970) : r < 2 ^ 1024 - 2 ^ 970 := by
  have hpos : (0 : ℚ) < 2 ^ 970 := by positivity
  rw [two_pow_1024]
  generalize (2 : ℚ) ^ 970 = p at *
  linarith

/-- The midpoint between the greatest finite number and the power of two above it. -/
theorem value_overflow :
    value (infinityBits - 1) + value infinityBits = 2 * (2 ^ 1024 - 2 ^ 970) := by
  have greatest : Normalized (1074 + 971) (2 * hiddenBit - 1) := ⟨by decide, .inr (by decide)⟩
  have power : Normalized (1074 + 972) hiddenBit := ⟨by unfold hiddenBit; omega, .inr le_rfl⟩
  have hgreatest : infinityBits - 1 = (1074 + 971) * hiddenBit + (2 * hiddenBit - 1) := rfl
  have hpower : infinityBits = (1074 + 972) * hiddenBit + hiddenBit := rfl
  rw [hgreatest, greatest.value_eq, hpower, power.value_eq, unit_add, unit_add]
  have h972 : (2 : ℚ) ^ 972 = 2 ^ 2 * 2 ^ 970 := by rw [← pow_add]
  have h971 : (2 : ℚ) ^ 971 = 2 ^ 1 * 2 ^ 970 := by rw [← pow_add]
  rw [two_pow_1024, h972, h971]
  generalize (2 : ℚ) ^ 970 = p
  unfold hiddenBit
  norm_num
  ring

/-- From the midpoint above the finite numbers on, the rounded number is infinite. -/
theorem Rounds.lt_infinityBits_iff {x : ℚ} {bits : ℕ} (h : Rounds x bits) :
    bits < infinityBits ↔ x < 2 ^ 1024 - 2 ^ 970 := by
  have odd : (infinityBits - 1) % 2 = 1 := by decide
  have mid := h.le_iff_of_odd odd
  have next : infinityBits - 1 + 1 = infinityBits := rfl
  rw [next, value_overflow, mul_lt_mul_iff_right₀ two_pos] at mid
  rw [← next, Nat.lt_succ_iff, mid]

/-- Below twice the least full significand, a pattern counts the least positive number. -/
theorem value_small {m : ℕ} (h : m < 2 * hiddenBit) : value m = m / 2 ^ 1074 := by
  have least : Normalized 0 m := ⟨h, .inl rfl⟩
  have hm := least.value_eq
  rw [Nat.zero_mul, Nat.zero_add, unit, pow_zero] at hm
  rw [hm, mul_one_div]

/-- The midpoint between zero and the least positive number. -/
theorem value_underflow : value 0 + value 1 = 2 * (1 / 2 ^ 1075) := by
  have h1075 : (2 : ℚ) ^ 1075 = 2 ^ 1 * 2 ^ 1074 := by rw [← pow_add]
  rw [value_small (by decide), value_small (by decide), h1075, Nat.cast_zero, Nat.cast_one]
  generalize (2 : ℚ) ^ 1074 = p
  ring

section Magnitude
variable {x : Float}

theorem isFinite_of_lt (h : x.toBits.toNat < infinityBits) : x.isFinite = true := by
  rw [isFinite_iff, Nat.mod_eq_of_lt (h.trans (by decide))]
  exact h

theorem exactValue_of_lt (h : x.toBits.toNat < infinityBits) :
    exactValue x = value x.toBits.toNat := by
  rw [exactValue]
  rcases unpack_magnitude h.le with ⟨hzero, ux⟩ | ⟨-, q, m, _, hn, hx, ux⟩ | ⟨hinf, -⟩
  · rw [ux, hzero, value_zero]
    rfl
  · rw [ux, hx, hn.value_eq, unit_eq_zpow]
    rfl
  · omega

theorem unpackedValue_nonpos (e : BitVec 11) (m : BitVec 52) :
    unpackedValue (ofFields .negative e m) ≤ 0 := by
  unfold ofFields
  split_ifs
  · exact le_rfl
  · exact le_rfl
  · exact le_rfl
  · exact neg_nonpos.mpr (by positivity)
  · exact neg_nonpos.mpr (by positivity)

/-- Every number stands for what its pattern does on the grid, or for no positive rational. -/
theorem exactValue_cases (x : Float) : exactValue x = value x.toBits.toNat ∨ exactValue x ≤ 0 := by
  rcases Nat.lt_or_ge x.toBits.toNat infinityBits with h | h
  · exact .inl (exactValue_of_lt h)
  · right
    obtain ⟨s, e, m, hbits, hx⟩ := exists_fields x
    rw [exactValue, hx]
    cases s with
    | negative => exact unpackedValue_nonpos e m
    | positive =>
      change _ = 0 * signBit + _ + _ at hbits
      have he : e.toNat < 2 ^ 11 := e.isLt
      have hm : m.toNat < 2 ^ 52 := m.isLt
      have hmax : e = -1#11 := by
        apply BitVec.eq_of_toNat_eq
        change e.toNat = 2047
        unfold infinityBits hiddenBit at *
        omega
      unfold ofFields
      rw [if_pos hmax]
      split_ifs <;> exact le_rfl

/-- Zero is as near to a ratio as every number that is not its own pattern on the grid. -/
theorem grid_or_zero_nearer {r : ℚ} (hr : 0 ≤ r) (x : Float) :
    exactValue x = value x.toBits.toNat ∨ |value 0 - r| ≤ |exactValue x - r| := by
  refine (exactValue_cases x).imp_right fun hx => ?_
  rw [value_zero, zero_sub, abs_neg, abs_of_nonneg hr, abs_of_nonpos (by linarith)]
  linarith

/-- A number on the unbounded grid that is finite is the nearest of all finite numbers. -/
theorem Rounds.isNearest {r : ℚ} (hr : 0 ≤ r) (h : Rounds r x.toBits.toNat)
    (hfinite : x.toBits.toNat < infinityBits) : IsNearest x r := by
  have hx := exactValue_of_lt hfinite
  refine ⟨isFinite_of_lt hfinite, fun y _ => ?_, fun y _ hne hdist => ?_⟩
  · rw [hx]
    rcases grid_or_zero_nearer hr y with hy | hy
    · rw [hy]
      exact h.nearest _
    · exact (h.nearest 0).trans hy
  · rw [hx] at hdist
    rcases grid_or_zero_nearer hr y with hy | hy
    · rw [hy] at hdist
      exact h.even _ (fun same => hne (Float.toBits_inj.mp (UInt64.toNat_inj.mp same))) hdist
    · by_cases hzero : x.toBits.toNat = 0
      · rw [hzero]
      · exact h.even 0 (Ne.symm hzero) (le_antisymm (h.nearest 0) (hdist ▸ hy))

/-- No other number is nearest, zero apart, which has one pattern for each sign. -/
theorem Rounds.eq_of_isNearest {y : Float} {r : ℚ} (hr : 0 ≤ r) (h : Rounds r x.toBits.toNat)
    (hfinite : x.toBits.toNat < infinityBits) (hne : x.toBits.toNat ≠ 0) (hy : IsNearest y r) :
    y = x := by
  have hx := exactValue_of_lt hfinite
  by_contra hyx
  have same : |exactValue y - r| = |exactValue x - r| :=
    le_antisymm (hy.nearest x (isFinite_of_lt hfinite))
      ((h.isNearest hr hfinite).nearest y hy.finite)
  have least (other : ℕ) : |exactValue y - r| ≤ |value other - r| := by
    rw [same, hx]
    exact h.nearest other
  rcases grid_or_zero_nearer hr y with hgrid | hzero
  · have even := hy.even x (isFinite_of_lt hfinite) (Ne.symm hyx) same
    rw [hgrid] at least
    exact hyx (Float.toBits_inj.mp
      (UInt64.toNat_inj.mp (Rounds.unique ⟨least, fun _ _ _ => even⟩ h)))
  · exact hne (Rounds.unique h ⟨fun other => hzero.trans (least other), fun _ _ _ => rfl⟩)

end Magnitude

section Nearest
variable {num den : ℕ}

theorem toBits_nearest (num den : ℕ) : (nearest num den).toBits.toNat = nearestBits num den :=
  toBits_ofBits (Nat.min_le_right _ _)

theorem ratio_nonneg (num den : ℕ) : (0 : ℚ) ≤ num / den := by positivity

theorem unboundedBits_lt_iff (h : 0 < den) :
    unboundedBits num den < infinityBits ↔ (num / den : ℚ) < 2 ^ 1024 - 2 ^ 970 :=
  (rounds_unboundedBits num den h).lt_infinityBits_iff

theorem toBits_nearest_of_ge (h : 0 < den) (hge : (2 ^ 1024 - 2 ^ 970 : ℚ) ≤ num / den) :
    (nearest num den).toBits.toNat = infinityBits := by
  rw [toBits_nearest, nearestBits_eq, Nat.min_eq_right]
  exact Nat.le_of_not_lt fun hlt => hge.not_gt ((unboundedBits_lt_iff h).mp hlt)

theorem toBits_nearest_of_lt (h : 0 < den) (hlt : (num / den : ℚ) < 2 ^ 1024 - 2 ^ 970) :
    (nearest num den).toBits.toNat = unboundedBits num den ∧
      (nearest num den).toBits.toNat < infinityBits := by
  have hbits := (unboundedBits_lt_iff h).mpr hlt
  rw [toBits_nearest, nearestBits_eq, Nat.min_eq_left hbits.le]
  exact ⟨rfl, hbits⟩

/-- Below this midpoint, the result is the nearest finite number. -/
theorem isNearest_nearest (h : 0 < den) (hlt : (num / den : ℚ) < 2 ^ 1024 - 2 ^ 970) :
    IsNearest (nearest num den) (num / den) := by
  obtain ⟨hbits, hfinite⟩ := toBits_nearest_of_lt h hlt
  have rounds := rounds_unboundedBits num den h
  rw [← hbits] at rounds
  exact rounds.isNearest (ratio_nonneg num den) hfinite

theorem eq_nearest (h : 0 < den) (hlt : (num / den : ℚ) < 2 ^ 1024 - 2 ^ 970)
    (hne : (nearest num den).toBits.toNat ≠ 0) {y : Float} (hy : IsNearest y (num / den)) :
    y = nearest num den := by
  obtain ⟨hbits, hfinite⟩ := toBits_nearest_of_lt h hlt
  have rounds := rounds_unboundedBits num den h
  rw [← hbits] at rounds
  exact rounds.eq_of_isNearest (ratio_nonneg num den) hfinite hne hy

/-- Up to half the least positive number, the result is zero. -/
theorem toBits_nearest_eq_zero_iff (h : 0 < den) :
    (nearest num den).toBits.toNat = 0 ↔ (num / den : ℚ) ≤ 1 / 2 ^ 1075 := by
  have mid := (rounds_unboundedBits num den h).le_iff_of_even (Nat.zero_mod 2)
  have positive : 0 < infinityBits := by decide
  rw [Nat.zero_add, value_underflow, mul_le_mul_iff_right₀ two_pos, Nat.le_zero] at mid
  rw [toBits_nearest, nearestBits_eq, ← mid]
  omega

theorem value_hiddenBit : value hiddenBit = 1 / 2 ^ 1022 := by
  have h1074 : (2 : ℚ) ^ 1074 = 2 ^ 52 * 2 ^ 1022 := by rw [← pow_add]
  have hhidden : ((hiddenBit : ℕ) : ℚ) = 2 ^ 52 := by norm_num [hiddenBit]
  rw [value_small (by decide), h1074, hhidden]
  generalize (2 : ℚ) ^ 1022 = p
  field_simp

/-- Below the least normal number, the result is the nearest multiple of the least positive number. -/
theorem nearest_of_subnormal (h : 0 < den) (hlt : (num / den : ℚ) < 1 / 2 ^ 1022) :
    ∃ m : ℕ, exactValue (nearest num den) = m / 2 ^ 1074 ∧
      ∀ k : ℕ, |m / 2 ^ 1074 - (num / den : ℚ)| ≤ |k / 2 ^ 1074 - (num / den : ℚ)| := by
  have rounds := rounds_unboundedBits num den h
  rw [← value_hiddenBit] at hlt
  have hle : unboundedBits num den ≤ hiddenBit := rounds.mono (Rounds.self hiddenBit) hlt.le
  have hfinite : hiddenBit < infinityBits := by decide
  have hbits : (nearest num den).toBits.toNat = unboundedBits num den := by
    rw [toBits_nearest, nearestBits_eq, Nat.min_eq_left (by omega)]
  have small {k : ℕ} (hk : k ≤ hiddenBit) : (k / 2 ^ 1074 : ℚ) = value k :=
    (value_small (by unfold hiddenBit at *; omega)).symm
  refine ⟨unboundedBits num den, ?_, fun k => ?_⟩
  · rw [exactValue_of_lt (by omega), hbits, small hle]
  · rw [small hle]
    rcases Nat.le_total k hiddenBit with hk | hk
    · rw [small hk]
      exact rounds.nearest k
    · -- A greater multiple is farther away than the least normal number, which is on the grid.
      have above : value hiddenBit ≤ k / 2 ^ 1074 := by
        rw [← small le_rfl]
        exact div_le_div_of_nonneg_right (Nat.cast_le.mpr hk) (by positivity)
      generalize (k / 2 ^ 1074 : ℚ) = y at above ⊢
      apply (rounds.nearest hiddenBit).trans
      rw [abs_of_pos (by linarith), abs_of_pos (by linarith)]
      linarith

/-- Rounding is monotone. -/
theorem nearest_mono {num' den' : ℕ} (h : 0 < den) (h' : 0 < den')
    (hle : (num / den : ℚ) ≤ num' / den') : nearest num den ≤ nearest num' den' := by
  have rounds := (rounds_unboundedBits num den h).mono (rounds_unboundedBits num' den' h') hle
  apply le_of_toBits
  · rw [toBits_nearest, toBits_nearest, nearestBits_eq, nearestBits_eq]
    exact min_le_min_right _ rounds
  · rw [toBits_nearest]
    exact Nat.min_le_right _ _

end Nearest
end SlotPacking.Binary64
