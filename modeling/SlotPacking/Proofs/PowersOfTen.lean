import SlotPacking.Proofs.NearestFloat
import SlotPacking.Proofs.RoundingError

/-!
Powers of ten in binary64. A number in scientific notation is found from the
numbers nearest to its digits and to its power of ten with one product or
quotient, or with two quotients where the power is too small for one. This loses
no more than two roundings.
-/
namespace SlotPacking.Binary64

section Naturals
variable {n k : ℕ}

theorem natPow_pos {b : ℕ} (hb : 0 < b) (k : ℕ) : 0 < Nat.pow b k := Nat.pow_pos hb

theorem cast_natPow (b k : ℕ) : ((Nat.pow b k : ℕ) : ℚ) = b ^ k := by
  rw [Nat.pow_eq, Nat.cast_pow]

/-- Ten to the power `k`. -/
def tenPow (k : ℕ) : ℕ := Nat.pow 10 k

theorem cast_tenPow (k : ℕ) : (tenPow k : ℚ) = 10 ^ k := cast_natPow 10 k

theorem tenPow_pos (k : ℕ) : (0 : ℚ) < tenPow k :=
  Nat.cast_pos.mpr (natPow_pos (by decide) k)

/-- A natural number below the overflow is rounded to a finite pattern. -/
theorem rounds_nearest (h : (n : ℚ) < 2 ^ 1024 - 2 ^ 970) :
    Rounds n (nearest n 1).toBits.toNat ∧ (nearest n 1).toBits.toNat < infinityBits := by
  have ratio : (n : ℚ) = n / (1 : ℕ) := by rw [Nat.cast_one, div_one]
  rw [ratio] at h ⊢
  obtain ⟨hbits, hfinite⟩ := toBits_nearest_of_lt Nat.one_pos h
  refine ⟨?_, hfinite⟩
  rw [hbits]
  exact rounds_unboundedBits n 1 Nat.one_pos

theorem tenPow_mono : Monotone tenPow := fun _ _ => Nat.pow_le_pow_right (by decide)

theorem tenPow_lt (hk : k < 309) : (tenPow k : ℚ) < 2 ^ 1024 - 2 ^ 970 := by
  have room : tenPow 308 + Nat.pow 2 970 < Nat.pow 2 1024 := by decide +kernel
  generalize 970 = i at *
  generalize 1024 = j at *
  have power : tenPow k ≤ tenPow 308 := tenPow_mono (Nat.le_of_lt_succ hk)
  have total := Nat.cast_lt (α := ℚ) |>.mpr ((Nat.add_le_add_right power _).trans_lt room)
  rw [Nat.cast_add, cast_natPow 2 i, cast_natPow 2 j] at total
  exact lt_sub_iff_add_lt.mpr total

/-- A number on the grid is rounded to itself. -/
theorem Rounds.value_eq {x : ℚ} {bits other : ℕ} (h : Rounds x bits) (hx : value other = x) :
    value bits = x := by
  rw [← hx] at h ⊢
  rw [h.unique (Rounds.self other)]

/-- A number that some pattern stands for. -/
def OnGrid (x : ℚ) : Prop := ∃ bits, value bits = x

theorem Rounds.value_of_onGrid {x : ℚ} {bits : ℕ} (h : Rounds x bits) (hx : OnGrid x) :
    value bits = x := by
  obtain ⟨other, hother⟩ := hx
  exact h.value_eq hother

theorem onGrid_natCast (hn : n ≤ 2 * hiddenBit) : OnGrid n := by
  obtain ⟨bits, hbits⟩ := exists_value_eq 1074 hn
  have one : unit 1074 = 1 := unit_add 0
  exact ⟨bits, by rw [hbits, one, mul_one]⟩

/-- Powers of ten are on the grid as long as their fives fit the significand. -/
theorem onGrid_tenPow (hk : k ≤ 22) : OnGrid (tenPow k) := by
  have fives : 5 ^ k ≤ 2 * hiddenBit :=
    (Nat.pow_le_pow_right (by decide) hk).trans (by decide)
  obtain ⟨bits, hbits⟩ := exists_value_eq (1074 + k) fives
  have tens : (10 : ℚ) ^ k = 5 ^ k * 2 ^ k := by
    rw [← mul_pow]
    norm_num
  refine ⟨bits, ?_⟩
  rw [hbits, unit_add, cast_tenPow, Nat.cast_pow, Nat.cast_ofNat, tens]

end Naturals

section GreatestPower
variable {m b c d : ℕ}

/-- The greatest power of ten that is finite lies just below the number nearest to it. -/
theorem greatestPower_bounds :
    ((5010420900022432 - 5505 / 100000) * 2 ^ 971 : ℚ) ≤ (tenPow 308 : ℚ) ∧
      (tenPow 308 : ℚ) < 5010420900022432 * 2 ^ 971 := by
  have below : (100000 * 5010420900022432 - 5505) * Nat.pow 2 971 ≤ 100000 * tenPow 308 := by
    decide +kernel
  have above : tenPow 308 < 5010420900022432 * Nat.pow 2 971 := by decide +kernel
  generalize 971 = j at *
  have below := Nat.cast_le (α := ℚ) |>.mpr below
  have above := Nat.cast_lt (α := ℚ) |>.mpr above
  push_cast [cast_natPow 2 j] at below above
  exact ⟨by linarith, above⟩

theorem rounds_greatestPower :
    Rounds (tenPow 308 : ℚ) (2045 * hiddenBit + 5010420900022432) := by
  have grid : Normalized 2045 5010420900022431 := ⟨by decide, .inr (by decide)⟩
  have hunit : unit 2045 = 2 ^ 971 := unit_add 971
  obtain ⟨below, above⟩ := greatestPower_bounds
  rw [← hunit] at below above
  have hu := unit_pos 2045
  obtain ⟨y, hy⟩ : ∃ y : ℚ, (tenPow 308 : ℚ) = y * unit 2045 :=
    ⟨_, (div_mul_cancel₀ _ hu.ne').symm⟩
  rw [hy] at below above ⊢
  have below := le_of_mul_le_mul_right below hu
  have above := lt_of_mul_lt_mul_right above hu.le
  apply grid.rounds
  · push_cast
    linarith
  · push_cast
    linarith
  · exact .inr ⟨rfl, by push_cast; linarith⟩
  · exact fun _ => by decide

/-- It is rounded up by a tenth of the greatest error. -/
theorem value_greatestPower (h : Rounds (tenPow 308 : ℚ) d) :
    Within (1 + 99 / 1000 * roundoff) (value d) (tenPow 308 : ℚ) ∧
      1112 / 1000 * 2 ^ 1023 ≤ value d ∧ value d ≤ 1113 / 1000 * 2 ^ 1023 := by
  have grid : Normalized 2045 5010420900022432 := ⟨by decide, .inr (by decide)⟩
  have hunit : unit 2045 = 2 ^ 971 := unit_add 971
  have hpow : (2 : ℚ) ^ 1023 = 2 ^ 52 * 2 ^ 971 := by rw [← pow_add]
  obtain ⟨below, above⟩ := greatestPower_bounds
  rw [h.unique rounds_greatestPower, grid.value_eq, hunit, hpow]
  generalize (tenPow 308 : ℚ) = ten at *
  have hp : (0 : ℚ) < 2 ^ 971 := by positivity
  generalize (2 : ℚ) ^ 971 = p at *
  clear hpow
  refine ⟨⟨?_, ?_⟩, ?_, ?_⟩ <;> norm_num [roundoff, hiddenBit] <;> linarith

/-- The spacing of the numbers between two powers of two. -/
theorem unit_binade (a : ℕ) : unit (1022 + a) = 2 * (roundoff * 2 ^ a) := by
  have least : (2 : ℚ) ^ 1074 = 2 ^ 52 * 2 ^ 1022 := by rw [← pow_add]
  have hroundoff : roundoff = 1 / (2 * 2 ^ 52) := by norm_num [roundoff, hiddenBit]
  rw [unit, pow_add, least, hroundoff]
  have hp : (2 : ℚ) ^ 1022 ≠ 0 := by positivity
  generalize (2 : ℚ) ^ 1022 = p at *
  field_simp

theorem unit_quotient_binade (a : ℕ) : unit a = roundoff * (2 ^ (a + 2) / 2 ^ 1023) := by
  have least : (2 : ℚ) ^ 1074 = 2 ^ 51 * 2 ^ 1023 := by rw [← pow_add]
  have hroundoff : roundoff = 1 / (2 ^ 2 * 2 ^ 51) := by norm_num [roundoff, hiddenBit]
  rw [unit, least, hroundoff, pow_add]
  have hp : (2 : ℚ) ^ 1023 ≠ 0 := by positivity
  generalize (2 : ℚ) ^ 1023 = p at *
  field_simp

theorem value_nonneg (bits : ℕ) : 0 ≤ value bits := by
  unfold value
  positivity

/-- Up to three, the digits are exact, and the quotient misses half of the least spacing. -/
theorem near_of_small (hm : m ≤ 3) (hb : Rounds m b) (hd : Rounds (tenPow 308 : ℚ) d)
    (hc : Rounds (value b / value d) c) : Near (m / tenPow 308) (value c) := by
  rw [hb.value_of_onGrid (onGrid_natCast (hm.trans (by decide)))] at hc
  obtain ⟨spread, lower, -⟩ := value_greatestPower hd
  have least := unit_quotient_binade 0
  have hm : (m : ℚ) ≤ 3 := Nat.cast_le_ofNat.mpr hm
  have hT := tenPow_pos 308
  generalize (tenPow 308 : ℚ) = ten at *
  generalize value d = C at *
  have hp : (0 : ℚ) < 2 ^ 1023 := by positivity
  generalize (2 : ℚ) ^ 1023 = p at *
  have hC : 0 < C := by linarith
  -- The rounded power moves the quotient, and the quotient is rounded: half a spacing together.
  have moved := (Within.refl (m : ℚ)).div spread hC hT m.cast_nonneg zero_le_one
    (by norm_num [roundoff, hiddenBit])
  have size : m / C ≤ 3 * p⁻¹ :=
    (div_le_div₀ (by norm_num) hm hp (by linarith)).trans_eq (div_eq_mul_inv 3 p)
  have half := hc.abs_sub_le (q := 0) (div_nonneg m.cast_nonneg hC.le)
  rw [zero_add, div_eq_mul_inv] at least
  have hi : 0 < p⁻¹ := inv_pos.mpr hp
  generalize p⁻¹ = i at *
  obtain ⟨le, ge⟩ := moved
  have := div_nonneg m.cast_nonneg hT.le
  generalize m / C = y at *
  generalize m / ten = x at *
  norm_num [roundoff, hiddenBit] at least half le ge
  have half := abs_le.mp (half (by linarith))
  right
  rw [abs_lt]
  constructor <;> linarith

theorem abs_sub_le_of_binade {a : ℕ} (hb : Rounds m b) (hm : (m : ℚ) ≤ 2 * 2 ^ a) :
    |value b - m| ≤ roundoff * 2 ^ a := by
  have error := hb.abs_sub_le (q := 1022 + a) m.cast_nonneg
  rw [unit_binade] at error
  refine (error (hm.trans_eq ?_)).trans_eq (by ring)
  linear_combination (-4 * 2 ^ a) * hiddenBit_mul_roundoff

theorem binade_le_value {a : ℕ} (hb : Rounds m b) (hm : 2 ^ a ≤ (m : ℚ)) : 2 ^ a ≤ value b := by
  have full := hb.value_ge (q := 1022 + a)
  have binade : hiddenBit * unit (1022 + a) = 2 ^ a := by
    rw [unit_binade]
    linear_combination (2 * 2 ^ a) * hiddenBit_mul_roundoff
  rw [binade] at full
  exact full hm

theorem abs_sub_le_of_quotient_binade {a : ℕ} {x : ℚ} (hc : Rounds x c) (hx : 0 ≤ x)
    (hle : x ≤ 2 ^ (a + 2) / 2 ^ 1023) :
    |value c - x| ≤ roundoff * (2 ^ (a + 2) / 2 ^ 1023) / 2 := by
  have error := hc.abs_sub_le (q := a) hx
  rw [unit_quotient_binade] at error
  refine error (hle.trans_eq ?_)
  generalize (2 : ℚ) ^ (a + 2) / 2 ^ 1023 = y
  linear_combination (-2 * y) * hiddenBit_mul_roundoff

/-- The factors of the three roundings together. -/
theorem within_of_roundings {f g m v C ten Q : ℚ} (digits : Within (1 + f * roundoff) m v)
    (power : Within (1 + 99 / 1000 * roundoff) C ten) (quotient : Within (1 + g * roundoff) (v / C) Q)
    (hf : 0 ≤ f) (hg : 0 ≤ g) (hfg : f * g ≤ 9 / 10) (hsum : f + g ≤ 19 / 10) (hm : 0 ≤ m)
    (hv : 0 ≤ v) (hC : 0 < C) (hten : 0 < ten) (hQ : 0 ≤ Q) :
    Within ((1 + roundoff) ^ 2) (m / ten) Q := by
  have hu := roundoff_pos
  refine ((digits.div power.symm hten hC hv (by positivity) (by positivity)).trans quotient
    (by positivity) (by positivity)).mono (by positivity) hQ ?_
  have tiny : roundoff ≤ 1 / 10000 := by norm_num [roundoff, hiddenBit]
  have square : roundoff ^ 2 ≤ 1 / 10000 * roundoff := by
    rw [sq]
    exact mul_le_mul_of_nonneg_right tiny hu.le
  have cube : roundoff ^ 3 ≤ 1 / 10000 * roundoff ^ 2 := by
    rw [pow_succ']
    exact mul_le_mul_of_nonneg_right tiny (sq_nonneg _)
  have linear := mul_le_mul_of_nonneg_right hsum hu.le
  have cross := mul_le_mul_of_nonneg_right hsum (sq_nonneg roundoff)
  have product := mul_le_mul_of_nonneg_right hfg (sq_nonneg roundoff)
  have last := mul_le_mul_of_nonneg_right hfg (pow_nonneg hu.le 3)
  linarith

section Binade
variable {A m v C ten p Q : ℚ}

/-- Where the significand of the quotient is nearly used up, the quotient is rounded less. -/
theorem within_of_low (digits : |v - m| ≤ roundoff * A) (lower : A ≤ m) (full : A ≤ v) (hA : 0 < A)
    (power : Within (1 + 99 / 1000 * roundoff) C ten) (hC : 0 < C) (hten : 0 < ten) (hp : 0 < p)
    (below : C ≤ 1113 / 1000 * p) (quotient : |Q - v / C| ≤ roundoff * (A / p) / 2) (hQ : 0 ≤ Q) :
    Within ((1 + roundoff) ^ 2) (m / ten) Q := by
  have hu := roundoff_pos
  have hx : 0 ≤ v / C := div_nonneg (hA.le.trans full) hC.le
  have digits : Within (1 + 1 * roundoff) m v := by
    rw [one_mul]
    exact .of_abs_sub_le digits
      (mul_le_mul_of_nonneg_left lower hu.le) (mul_le_mul_of_nonneg_left full hu.le)
  have size : A / p ≤ 1113 / 1000 * (v / C) := by
    rw [div_le_iff₀ hp]
    calc A ≤ v / C * C := full.trans_eq (div_mul_cancel₀ v hC.ne').symm
      _ ≤ v / C * (1113 / 1000 * p) := mul_le_mul_of_nonneg_left below hx
      _ = 1113 / 1000 * (v / C) * p := by ring
  have rounded : Within (1 + 6 / 10 * roundoff) (v / C) Q := by
    have hy : 0 ≤ A / p := by positivity
    have tiny : roundoff ≤ 1 / 10000 := by norm_num [roundoff, hiddenBit]
    have small : roundoff * (A / p) ≤ A / p / 10000 := by
      linarith [mul_le_mul_of_nonneg_right tiny hy]
    have far := (abs_le.mp quotient).1
    have before : A / p / 2 ≤ 6 / 10 * (v / C) := by linarith
    have behind : A / p / 2 ≤ 6 / 10 * Q := by linarith
    refine .of_abs_sub_le quotient ?_ ?_
    · linarith [mul_le_mul_of_nonneg_left before hu.le]
    · linarith [mul_le_mul_of_nonneg_left behind hu.le]
  exact within_of_roundings digits power rounded (by norm_num) (by norm_num) (by norm_num)
    (by norm_num) (hA.le.trans lower) (hA.le.trans full) hC hten hQ

/-- Where it is not, the digits are rounded less. -/
theorem within_of_high (digits : |v - m| ≤ roundoff * A) (lower : A ≤ m) (full : A ≤ v) (hA : 0 < A)
    (power : Within (1 + 99 / 1000 * roundoff) C ten) (hC : 0 < C) (hten : 0 < ten) (hp : 0 < p)
    (above : 1112 / 1000 * p ≤ C) (hhigh : A / p < v / C) (rounded : Within (1 + roundoff) (v / C) Q)
    (hQ : 0 ≤ Q) : Within ((1 + roundoff) ^ 2) (m / ten) Q := by
  have hu := roundoff_pos
  have tiny : roundoff ≤ 1 / 10000 := by norm_num [roundoff, hiddenBit]
  have size : 1112 / 1000 * A ≤ v := by
    rw [div_lt_div_iff₀ hp hC] at hhigh
    have := mul_le_mul_of_nonneg_left above hA.le
    exact le_of_mul_le_mul_right (by linarith) hp
  have digits : Within (1 + 9 / 10 * roundoff) m v := by
    have near := (abs_le.mp digits).2
    have small : roundoff * A ≤ A / 10000 := by
      linarith [mul_le_mul_of_nonneg_right tiny hA.le]
    have before : A ≤ 9 / 10 * m := by linarith
    have behind : A ≤ 9 / 10 * v := by linarith
    refine .of_abs_sub_le digits ?_ ?_
    · linarith [mul_le_mul_of_nonneg_left before hu.le]
    · linarith [mul_le_mul_of_nonneg_left behind hu.le]
  rw [← one_mul roundoff] at rounded
  exact within_of_roundings digits power rounded (by norm_num) (by norm_num) (by norm_num)
    (by norm_num) (hA.le.trans lower) (hA.le.trans full) hC hten hQ

end Binade

/-- The digits and the greatest power of ten are rounded, and so is their quotient. Where the digits
are rounded most, the quotient is rounded least, so this is no more than two roundings. -/
theorem near_greatestPower (hb : Rounds m b) (hd : Rounds (tenPow 308) d)
    (hc : Rounds (value b / value d) c) : Near (m / tenPow 308) (value c) := by
  rcases Nat.lt_or_ge m 4 with hm | hm
  · exact near_of_small (Nat.le_of_lt_succ hm) hb hd hc
  obtain ⟨a, ha⟩ : ∃ a, m.log2 = a + 2 :=
    Nat.exists_eq_add_of_le' ((Nat.le_log2 (by omega)).mpr hm)
  have lower : ((2 : ℚ) ^ (a + 2)) ≤ m := by
    exact_mod_cast ha ▸ Nat.log2_self_le (by omega)
  have upper : (m : ℚ) ≤ 2 * 2 ^ (a + 2) := by
    rw [← pow_succ']
    exact_mod_cast ha ▸ Nat.lt_log2_self.le
  have hA : (4 : ℚ) ≤ 2 ^ (a + 2) := by
    rw [pow_add]
    linarith [one_le_pow₀ (one_le_two (α := ℚ)) (n := a)]
  have digits := abs_sub_le_of_binade hb upper
  have full := binade_le_value hb lower
  obtain ⟨power, above, below⟩ := value_greatestPower hd
  have hp : (0 : ℚ) < 2 ^ 1023 := by positivity
  have hC : 0 < value d := lt_of_lt_of_le (mul_pos (by norm_num) hp) above
  -- The digits lie above `2 ^ (a + 2)`; the quotient may lie on either side of the power of two.
  left
  rcases le_or_gt (value b / value d) (2 ^ (a + 2) / 2 ^ 1023) with hlow | hhigh
  · have quotient := abs_sub_le_of_quotient_binade hc (div_nonneg (value_nonneg b) hC.le) hlow
    exact within_of_low digits lower full (by linarith) power hC (tenPow_pos 308) hp below quotient
      (value_nonneg c)
  · refine within_of_high digits lower full (by linarith) power hC (tenPow_pos 308) hp above hhigh
      (hc.within ?_) (value_nonneg c)
    have least : hiddenBit * unit 0 ≤ 4 / 2 ^ 1023 := by
      rw [unit_quotient_binade, ← mul_assoc, hiddenBit_mul_roundoff, zero_add]
      have hi : (0 : ℚ) ≤ 1 / 2 ^ 1023 := by positivity
      rw [div_eq_mul_one_div (2 ^ 2 : ℚ), div_eq_mul_one_div (4 : ℚ)]
      generalize (1 : ℚ) / 2 ^ 1023 = i at *
      linarith
    exact (least.trans (div_le_div_of_nonneg_right hA hp.le)).trans hhigh.le

end GreatestPower

/-- A natural number has a full significand, zero apart, which is on the grid. -/
theorem Rounds.within_natCast {n b : ℕ} (h : Rounds n b) : Within (1 + roundoff) n (value b) := by
  rcases n.eq_zero_or_pos with rfl | hn
  · rw [h.value_eq (value_zero.trans Nat.cast_zero.symm), Nat.cast_zero]
    constructor <;> simp
  · have one : hiddenBit * unit 1022 = 1 := by
      rw [unit_binade 0, pow_zero, mul_one]
      linarith [hiddenBit_mul_roundoff]
    have least : hiddenBit * unit 0 ≤ 1 :=
      (mul_le_mul_of_nonneg_left (unit_mono (Nat.zero_le 1022)) (Nat.cast_nonneg _)).trans_eq one
    exact h.within (least.trans (Nat.one_le_cast.mpr hn))

section Scaled
variable {m k b d : ℕ}

theorem Rounds.value_pos (h : Rounds (tenPow k) d) : 0 < value d := by
  have hu := roundoff_pos
  have hpos := (tenPow_pos k).trans_le h.within_natCast.le
  exact pos_of_mul_pos_right hpos (by positivity)

theorem near_mul (hb : Rounds m b) (hd : Rounds (tenPow k) d) :
    Near (m * tenPow k) (value b * value d) := by
  have hu := roundoff_pos
  left
  rw [sq]
  exact hb.within_natCast.mul hd.within_natCast (tenPow_pos k).le (value_nonneg b) (by positivity)
    (by positivity)

theorem near_div (hb : Rounds m b) (hd : Rounds (tenPow k) d) :
    Near (m / tenPow k) (value b / value d) := by
  have hu := roundoff_pos
  left
  rw [sq]
  exact hb.within_natCast.div hd.within_natCast (tenPow_pos k) hd.value_pos (value_nonneg b)
    (by positivity) (by positivity)

end Scaled
end SlotPacking.Binary64
