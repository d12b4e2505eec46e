import SlotPacking.Proofs.NumberTokens
import SlotPacking.Proofs.PowersOfTen

/-!
The size of shortest decimals. The search starts near the first digit of a number
and ends on the first grid on which the number is told from its neighbours, so a
shortest decimal has at most seventeen digits and an exponent in the range of
the finite numbers.
-/
namespace SlotPacking
open Binary64

section Logarithm
variable {p r : ℕ} {k t : ℤ}

/-- If `r / p` is the decimal logarithm of two up to `1 / p`, the powers of two are found between
powers of ten up to a factor of two. -/
theorem two_zpow_bounds (low : (2 : ℚ) ^ p ≤ 10 ^ r) (high : (10 : ℚ) ^ r ≤ 2 ^ (p + 1))
    (hk : -p ≤ k) (hk' : k ≤ p) :
    (2 : ℚ) ^ (p * (k - 1)) ≤ 10 ^ (r * k) ∧ (10 : ℚ) ^ (r * k) ≤ 2 ^ (p * (k + 1)) := by
  have low' : (0 : ℚ) < 2 ^ p := by positivity
  have ten : (10 : ℚ) ^ (r * k) = (10 ^ r) ^ k := by rw [zpow_mul, zpow_natCast]
  have two (j : ℕ) : ((2 : ℚ) ^ j) ^ k = 2 ^ (j * k) := by rw [zpow_mul, zpow_natCast]
  have step {i j : ℤ} (h : i ≤ j) : (2 : ℚ) ^ i ≤ 2 ^ j := zpow_le_zpow_right₀ one_le_two h
  rw [ten]
  rcases le_total 0 k with hsign | hsign
  · have below := zpow_le_zpow_left₀ hsign low'.le low
    have above := zpow_le_zpow_left₀ hsign (by positivity) high
    rw [two] at below above
    push_cast at above
    exact ⟨(step (by linarith)).trans below, above.trans (step (by linarith))⟩
  · have invert {a b : ℚ} (ha : 0 < a) (hab : a ≤ b) : b ^ k ≤ a ^ k := by
      obtain ⟨j, rfl⟩ := Int.exists_eq_neg_ofNat hsign
      rw [zpow_neg, zpow_neg, zpow_natCast, zpow_natCast]
      exact inv_anti₀ (by positivity) (pow_le_pow_left₀ ha.le hab j)
    have above := invert low' low
    have below := invert (by positivity) high
    rw [two] at below above
    push_cast at below
    exact ⟨(step (by linarith)).trans below, above.trans (step (by linarith))⟩

theorem two_zpow_le_of_floor (low : (2 : ℚ) ^ p ≤ 10 ^ r) (high : (10 : ℚ) ^ r ≤ 2 ^ (p + 1))
    (hp : p ≠ 0) (hk : -p ≤ k) (hk' : k ≤ p) (ht : p * t ≤ r * k) (ht' : r * k ≤ p * (t + 1)) :
    (2 : ℚ) ^ (k - 1) ≤ 10 ^ (t + 1) ∧ (10 : ℚ) ^ t ≤ 2 ^ (k + 1) := by
  obtain ⟨below, above⟩ := two_zpow_bounds low high hk hk'
  have ten {i j : ℤ} (h : i ≤ j) : (10 : ℚ) ^ i ≤ 10 ^ j := zpow_le_zpow_right₀ (by norm_num) h
  have power (b : ℚ) (i : ℤ) : b ^ (p * i) = (b ^ i) ^ p := by
    rw [mul_comm, zpow_mul, zpow_natCast]
  have below := below.trans (ten ht')
  have above := (ten ht).trans above
  rw [power, power] at below above
  exact ⟨(pow_le_pow_iff_left₀ (by positivity) (by positivity) hp).mp below,
    (pow_le_pow_iff_left₀ (by positivity) (by positivity) hp).mp above⟩

/-- `0.30103` exceeds the decimal logarithm of two by less than a hundred thousandth. -/
theorem exists_log_two : ∃ p r : ℕ, p = 100000 ∧ r = 30103 ∧
    (2 : ℚ) ^ p ≤ 10 ^ r ∧ (10 : ℚ) ^ r ≤ 2 ^ (p + 1) := by
  have low : Nat.pow 2 100000 ≤ Nat.pow 10 30103 := by decide +kernel
  have high : Nat.pow 10 30103 ≤ Nat.pow 2 (100000 + 1) := by decide +kernel
  refine ⟨100000, 30103, rfl, rfl, ?_⟩
  generalize 100000 = p at *
  generalize 30103 = r at *
  have low := Nat.cast_le (α := ℚ) |>.mpr low
  have high := Nat.cast_le (α := ℚ) |>.mpr high
  rw [cast_natPow, cast_natPow] at low high
  exact ⟨low, high⟩

end Logarithm

namespace Decimal
variable {bits q m : ℕ} {e : ℤ} {d : Decimal} {tie : Tie}

section Search
variable {accepts : Decimal → Bool} {half : Ordering} {lower upper : Decimal}

theorem better_cases (h : better accepts tie half lower upper = some d) :
    d = lower ∨ d = upper := by
  unfold better at h
  split at h
  next => cases h
  next => exact .inl (Option.some.inj h).symm
  next => exact .inr (Option.some.inj h).symm
  next =>
    split at h
    · exact .inl (Option.some.inj h).symm
    · exact .inr (Option.some.inj h).symm
    · exact .inr (Option.some.inj h).symm
    · obtain rfl := Option.some.inj h
      split
      · exact .inl rfl
      · exact .inr rfl

theorem better_ne_none (h : accepts lower = true ∨ accepts upper = true) :
    better accepts tie half lower upper ≠ none := by
  unfold better
  split
  next hlower hupper => simp [hlower, hupper] at h
  next => exact Option.some_ne_none _
  next => exact Option.some_ne_none _
  next => split <;> exact Option.some_ne_none _

/-- The search ends on the first grid with a hit: the one above it, if there is one, has none. -/
theorem search_first {grid : ℤ → Option Decimal} {fuel k : ℕ} {top : ℤ} (hk : k < fuel)
    (hit : grid (top - k) ≠ none) : ∃ d e, search grid fuel top = some d ∧ grid e = some d ∧
      (e = top ∨ grid (e + 1) = none) := by
  induction fuel generalizing k top with
  | zero => exact absurd hk (Nat.not_lt_zero k)
  | succ fuel ih =>
    unfold search
    cases htop : grid top with
    | some d => exact ⟨d, top, rfl, htop, .inl rfl⟩
    | none =>
      cases k with
      | zero => exact absurd (by simpa using htop) hit
      | succ k =>
        have below : top - 1 - k = top - (k + 1 : ℕ) := by omega
        obtain ⟨d, e, hsearch, hgrid, hend⟩ := ih (Nat.lt_of_succ_lt_succ hk) (below ▸ hit)
        refine ⟨d, e, hsearch, hgrid, .inr (hend.elim ?_ id)⟩
        rintro rfl
        rwa [sub_add_cancel]

end Search

section Grid

/-- The neighbours of a number on a grid of decimals, of which a hit is one. -/
theorem onGrid?_neighbours (tie : Tie) (bits : ℕ) (e : ℤ) : ∃ k : ℕ,
    k * 10 ^ e ≤ Binary64.value bits ∧ Binary64.value bits < (k + 1) * 10 ^ e ∧
    (∀ d, onGrid? tie bits e = some d → d = ⟨k, e⟩ ∨ d = ⟨k + 1, e⟩) ∧
    (nearestBits ⟨k, e⟩ = bits ∨ nearestBits ⟨k + 1, e⟩ = bits → onGrid? tie bits e ≠ none) := by
  have he : (0 : ℚ) < 10 ^ e := by positivity
  unfold onGrid? Binary64.value
  generalize 1074 = j
  have hj : (0 : ℚ) < 2 ^ j := by positivity
  have ratio : (scaledValue bits / 2 ^ j : ℚ) / 10 ^ e =
      (scaledValue bits * Nat.pow 10 (-e).toNat : ℕ) / (Nat.pow 2 j * Nat.pow 10 e.toNat : ℕ) := by
    rw [zpow_eq_div, Nat.cast_mul, Nat.cast_mul, cast_natPow, cast_natPow, cast_natPow,
      Nat.cast_ofNat, Nat.cast_ofNat]
    field_simp
  have positive : 0 < Nat.pow 2 j * Nat.pow 10 e.toNat :=
    Nat.mul_pos (natPow_pos two_pos j) (natPow_pos (by decide) e.toNat)
  generalize scaledValue bits * Nat.pow 10 (-e).toNat = num at *
  generalize Nat.pow 2 j * Nat.pow 10 e.toNat = den at *
  have upper : num < (num / den + 1) * den := Nat.mul_comm _ den ▸ Nat.lt_mul_div_succ num positive
  refine ⟨num / den, ?_, ?_, fun d h => better_cases h, fun h => better_ne_none ?_⟩
  · rw [← le_div_iff₀ he, ratio]
    exact Nat.cast_div_le
  · rw [← div_lt_iff₀ he, ratio, div_lt_iff₀ (Nat.cast_pos.mpr positive)]
    exact_mod_cast upper
  · simpa only [beq_iff_eq] using h

theorem value_mk (k : ℕ) (e : ℤ) : value ⟨k, e⟩ = k * 10 ^ e := rfl

/-- On a grid that is finer than the spacing below a number, a neighbour reads back to it. -/
theorem onGrid?_ne_none (tie : Tie) (h : Normalized q m) (hfinite : q * hiddenBit + m + 1 < infinityBits)
    (hfine : (10 : ℚ) ^ e < unit q) : onGrid? tie (q * hiddenBit + m + 1) e ≠ none := by
  obtain ⟨k, lower, upper, -, hit⟩ := onGrid?_neighbours tie (q * hiddenBit + m + 1) e
  apply hit
  rw [nearestBits_eq_iff hfinite, nearestBits_eq_iff hfinite, value_mk, value_mk]
  rw [h.value_succ] at lower upper
  push_cast
  have he : (0 : ℚ) < 10 ^ e := by positivity
  rcases le_total (2 * ((m + 1) * unit q - k * 10 ^ e)) (10 ^ e) with hnear | hnear
  · exact .inl (h.rounds_succ (abs_lt.mpr ⟨by linarith, by linarith⟩))
  · exact .inr (h.rounds_succ (abs_lt.mpr ⟨by linarith, by linarith⟩))

theorem digits_le (hgrid : onGrid? tie bits e = some d) (bound : ℕ)
    (hvalue : Binary64.value bits ≤ bound * 10 ^ e) : d.digits ≤ bound + 1 ∧ d.exponent = e := by
  obtain ⟨k, lower, -, cases, -⟩ := onGrid?_neighbours tie bits e
  have hk : k ≤ bound := by
    have he : (0 : ℚ) < 10 ^ e := by positivity
    exact_mod_cast le_of_mul_le_mul_right (lower.trans hvalue) he
  rcases cases d hgrid with rfl | rfl
  · exact ⟨by dsimp only; omega, rfl⟩
  · exact ⟨by dsimp only; omega, rfl⟩

end Grid

section Range

theorem log2_scaledValue_lt (h : bits < infinityBits) : (scaledValue bits).log2 < 2098 := by
  obtain ⟨q, m, hn, rfl⟩ := exists_normalized bits
  have hq : q ≤ 2045 := by
    obtain ⟨-, hfull⟩ := hn
    unfold infinityBits hiddenBit at *
    omega
  rw [hn.scaledValue_eq]
  rcases m.eq_zero_or_pos with rfl | hm
  · simp
  · rw [Nat.log2_lt (Nat.mul_pos hm (Nat.two_pow_pos q)).ne']
    calc m * 2 ^ q < 2 ^ 53 * 2 ^ q := Nat.mul_lt_mul_of_pos_right hn.lt (Nat.two_pow_pos q)
      _ = 2 ^ (53 + q) := (pow_add 2 53 q).symm
      _ ≤ 2 ^ 2098 := Nat.pow_le_pow_right two_pos (by omega)

/-- The search starts near the first digit of a number. -/
theorem topExponent_bounds (hpos : bits ≠ 0) (hfinite : bits < infinityBits) :
    ∃ k : ℤ, unit 0 ≤ 2 ^ (k - 1) ∧ 2 ^ (k - 1) ≤ Binary64.value bits ∧ Binary64.value bits ≤ 2 ^ k ∧
      (2 : ℚ) ^ (k - 1) ≤ 10 ^ topExponent bits ∧ (10 : ℚ) ^ (topExponent bits - 1) ≤ 2 ^ (k + 1) := by
  have hlog := log2_scaledValue_lt hfinite
  have hne : scaledValue bits ≠ 0 :=
    (Nat.zero_le _).trans_lt (scaledValue_strictMono (Nat.pos_of_ne_zero hpos)) |>.ne'
  have lower : ((2 : ℚ) ^ (scaledValue bits).log2) ≤ scaledValue bits := by
    exact_mod_cast Nat.log2_self_le hne
  have upper : (scaledValue bits : ℚ) ≤ 2 ^ ((scaledValue bits).log2 + 1) := by
    exact_mod_cast Nat.lt_log2_self.le
  unfold topExponent Binary64.value
  generalize (scaledValue bits).log2 = l at *
  obtain ⟨p, r, rfl, rfl, low, high⟩ := exists_log_two
  obtain ⟨below, above⟩ := two_zpow_le_of_floor (t := ((l : ℤ) - 1073) * 30103 / 100000) low high
    (by decide) (k := (l : ℤ) - 1073) (by omega) (by omega) (by omega) (by omega)
  have power (i : ℕ) : (2 : ℚ) ^ ((i : ℤ) - 1074) = 2 ^ i / 2 ^ 1074 := zpow_sub₀ two_ne_zero _ _
  have first : (l : ℤ) - 1073 - 1 = l - 1074 := by omega
  have next : (l : ℤ) - 1073 = (l + 1 : ℕ) - 1074 := by omega
  refine ⟨l - 1073, ?_, ?_, ?_, below, by rwa [add_sub_cancel_right]⟩
  · rw [first, power]
    exact div_le_div_of_nonneg_right (pow_le_pow_right₀ one_le_two l.zero_le) (by positivity)
  · rw [first, power]
    exact div_le_div_of_nonneg_right lower (by positivity)
  · rw [next, power]
    exact div_le_div_of_nonneg_right upper (by positivity)

/-- No grid that is coarser than the least number is out of the range of exponents. -/
theorem exponent_ge (h : unit 0 ≤ 10 ^ e) : -329 ≤ e := by
  by_contra hlow
  have powers : Nat.pow 2 1074 < Nat.pow 10 330 := by decide +kernel
  have small : (10 : ℚ) ^ e ≤ 10 ^ (-(330 : ℕ) : ℤ) :=
    zpow_le_zpow_right₀ (by norm_num) (by push_cast; omega)
  unfold unit at h
  generalize 1074 = i at *
  generalize 330 = j at *
  have powers := Nat.cast_lt (α := ℚ) |>.mpr powers
  rw [cast_natPow, cast_natPow, Nat.cast_ofNat, Nat.cast_ofNat] at powers
  rw [zpow_neg, zpow_natCast] at small
  have inverse : ((10 : ℚ) ^ j)⁻¹ < (2 ^ i)⁻¹ := inv_strictAnti₀ (by positivity) powers
  rw [pow_zero, one_div] at h
  linarith

/-- The first hit of the search is on a grid that is not much finer than the spacing below the
number. -/
theorem shortest_size (tie : Tie) (hpos : bits ≠ 0) (hfinite : bits < infinityBits) :
    (shortest tie bits).digits < 10 ^ 17 ∧ -330 ≤ (shortest tie bits).exponent := by
  obtain ⟨k, hk, lower, upper, top, bottom⟩ := topExponent_bounds hpos hfinite
  obtain ⟨b, rfl⟩ := Nat.exists_eq_succ_of_ne_zero hpos
  obtain ⟨q, m, hn, rfl⟩ := exists_normalized b
  have significand : Binary64.value (q * hiddenBit + m + 1) ≤ 2 ^ 53 * unit q := by
    have hm : (m + 1 : ℚ) ≤ 2 ^ 53 := by exact_mod_cast Nat.succ_le_of_lt hn.lt
    rw [hn.value_succ]
    exact mul_le_mul_of_nonneg_right hm (unit_pos q).le
  have fine : (10 : ℚ) ^ (topExponent (q * hiddenBit + m + 1) - 19) < unit q := by
    generalize topExponent (q * hiddenBit + m + 1) = t at *
    have ten : (10 : ℚ) ^ (t - 1) = 10 ^ (t - 19) * 10 ^ 18 := by
      rw [← zpow_natCast, ← zpow_add₀ (by norm_num)]
      congr 1
      push_cast
      ring
    have two : (2 : ℚ) ^ (k + 1) = 2 ^ (k - 1) * 4 := by
      have four : (4 : ℚ) = 2 ^ (2 : ℤ) := by norm_num
      rw [four, ← zpow_add₀ two_ne_zero]
      congr 1
      ring
    have := unit_pos q
    rw [ten, two] at bottom
    norm_num at bottom significand
    linarith
  -- The last grid of the search is fine enough, so the search ends with a hit.
  obtain ⟨d, e, hsearch, hgrid, hend⟩ := search_first (show 19 < 20 by decide)
    (onGrid?_ne_none tie hn hfinite fine)
  rw [shortest, hsearch, Option.getD_some]
  have least := unit_mono q.zero_le
  rcases hend with rfl | hend
  · have double : (2 : ℚ) ^ k = 2 ^ (k - 1) * 2 := by
      rw [← zpow_add_one₀ two_ne_zero, sub_add_cancel]
    obtain ⟨hdigits, hexponent⟩ := digits_le hgrid 2 (by
      push_cast
      linarith)
    exact ⟨by omega, by linarith [exponent_ge (hk.trans top)]⟩
  · -- The grid above has no hit, so it is not finer than the spacing.
    have coarse : unit q ≤ 10 ^ (e + 1) := by
      by_contra hfine
      exact onGrid?_ne_none tie hn hfinite (not_le.mp hfine) hend
    have next : (10 : ℚ) ^ (e + 1) = 10 ^ e * 10 := zpow_add_one₀ (by norm_num) e
    obtain ⟨hdigits, hexponent⟩ := digits_le hgrid (10 * 2 ^ 53) (by
      push_cast
      linarith)
    exact ⟨by omega, by linarith [exponent_ge (least.trans coarse)]⟩

end Range
end Decimal

/-- No finite number has a first digit beyond the range of exponents. -/
theorem Decimal.exponent_le {bits : ℕ} {d : Decimal} (h : Rounds d.value bits)
    (hfinite : bits < infinityBits) (hne : d.digits ≠ 0) : d.exponent ≤ 308 := by
  by_contra hhigh
  have powers : Nat.pow 2 1024 ≤ Nat.pow 10 309 := by decide +kernel
  have large : (10 : ℚ) ^ ((309 : ℕ) : ℤ) ≤ 10 ^ d.exponent :=
    zpow_le_zpow_right₀ (by norm_num) (by push_cast; omega)
  have hvalue : (10 : ℚ) ^ d.exponent ≤ d.value :=
    le_mul_of_one_le_left (by positivity) (Nat.one_le_cast.mpr (Nat.one_le_iff_ne_zero.mpr hne))
  have below := h.lt_infinityBits_iff.mp hfinite
  have hpos : (0 : ℚ) < 2 ^ 970 := by positivity
  generalize (2 : ℚ) ^ 970 = p at *
  generalize 1024 = i at *
  generalize 309 = j at *
  have powers := Nat.cast_le (α := ℚ) |>.mpr powers
  rw [cast_natPow, cast_natPow, Nat.cast_ofNat, Nat.cast_ofNat] at powers
  rw [zpow_natCast] at large
  linarith

/-- Digits of at most seventeen places, at an exponent in the range of the finite numbers. -/
def InRange (m : ℕ) (e : ℤ) : Prop := m < 10 ^ 17 ∧ -330 ≤ e ∧ e ≤ 308

theorem FloatStyle.decimal_inRange (style : FloatStyle) {bits : ℕ} (h : bits < infinityBits) :
    InRange (style.decimal bits).digits (style.decimal bits).exponent := by
  have rounds := style.rounds_decimal h
  by_cases hzero : bits = 0
  · rw [decimal, if_pos hzero]
    exact ⟨by decide, by decide, by decide⟩
  · rw [decimal, if_neg hzero] at rounds ⊢
    obtain ⟨hdigits, hlow⟩ := Decimal.shortest_size style.tie hzero h
    exact ⟨hdigits, hlow,
      Decimal.exponent_le rounds h (Decimal.shortest_value_ne_zero style.tie h hzero)⟩

/-- What a text in positional notation up to sixteen digits shows is in range. -/
theorem Decimal.Shows.inRange {style : FloatStyle} {d : Decimal} {m : ℕ} {e : ℤ}
    (h : d.Shows style m e) (hstyle : style.greatestPositional ≤ 15)
    (hd : InRange d.digits d.exponent) : InRange m e := by
  cases h with
  | digits => exact hd
  | whole hwhole hfits =>
    refine ⟨?_, by decide, by decide⟩
    have hlength : d.digits < 10 ^ (Nat.toDigits 10 d.digits).length :=
      (Nat.length_toDigits_le_iff (by decide) Nat.length_toDigits_pos).mp le_rfl
    calc d.digits * 10 ^ (d.exponent.toNat + 1)
        < 10 ^ (Nat.toDigits 10 d.digits).length * 10 ^ (d.exponent.toNat + 1) :=
          Nat.mul_lt_mul_of_pos_right hlength (Nat.pow_pos (by decide))
      _ = 10 ^ ((Nat.toDigits 10 d.digits).length + (d.exponent.toNat + 1)) := (pow_add _ _ _).symm
      _ ≤ 10 ^ 17 := Nat.pow_le_pow_right (by decide) (by omega)

end SlotPacking
