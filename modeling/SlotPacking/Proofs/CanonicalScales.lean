import Mathlib.Data.List.TakeWhile
import Mathlib.Order.Compare
import Mathlib.Tactic.NormNum
import SlotPacking.Proofs.ScaleValues

/-!
Scales are canonical. Whatever operations have led to a scale, it is the rational
that they denote, in lowest terms, so scales can be compared, ordered and written
without regard to where they come from. The text of a scale reads back as a
fraction.
-/
namespace SlotPacking
open Result

namespace Scale
variable {a b : Scale}

/-- The number that a text of decimal digits stands for. -/
def readDigits? (cs : List Char) : Option ℕ :=
  if cs ≠ [] ∧ cs.all Char.isDigit then some (Nat.ofDigitChars 10 cs 0) else none

/-- Reads `n` or `n/d`, in lowest terms or not. -/
def ofText? (text : String) : Option Scale := do
  let num ← readDigits? (text.toList.takeWhile (· ≠ '/'))
  match text.toList.dropWhile (· ≠ '/') with
  | [] => some (ofNat num)
  | _ :: rest => (ofRatio num (← readDigits? rest)).toOption

theorem readDigits?_toDigits (n : ℕ) : readDigits? (Nat.toDigits 10 n) = some n := by
  have digits : (Nat.toDigits 10 n).all Char.isDigit = true :=
    List.all_eq_true.mpr fun _ hc => Nat.isDigit_of_mem_toDigits (by decide) (by decide) hc
  rw [readDigits?, if_pos ⟨Nat.toDigits_ne_nil, digits⟩, Nat.ofDigitChars_ten_toDigits]

theorem slash_not_mem_toDigits (n : ℕ) : '/' ∉ Nat.toDigits 10 n := fun h =>
  absurd (Nat.isDigit_of_mem_toDigits (by decide) (by decide) h) (by decide)

theorem fractionText_toList (num den : ℕ) : (fractionText num den).toList =
    if den = 1 then Nat.toDigits 10 num else Nat.toDigits 10 num ++ '/' :: Nat.toDigits 10 den := by
  unfold fractionText
  split <;> simp [toString]

/-- A reduced fraction is the scale of its own numerator and denominator. -/
theorem ofRatio_num_den (a : Scale) : ofRatio a.num a.den = .ok a := by
  have lowest : a.num.gcd a.den = 1 := a.lowest
  rw [ofRatio, dif_pos a.den_pos]
  congr 1
  apply ext_num_den
  · rw [reduce_num, lowest, Nat.div_one]
  · rw [reduce_den, lowest, Nat.div_one]

theorem ofText?_text (a : Scale) : ofText? a.text = some a := by
  have outside {c : Char} (hc : c ∈ Nat.toDigits 10 a.num) : decide (c ≠ '/') = true :=
    decide_eq_true fun h => slash_not_mem_toDigits a.num (h ▸ hc)
  rw [ofText?, text, fractionText_toList]
  split
  next hone =>
    rw [List.takeWhile_eq_self_iff.mpr fun _ => outside,
      List.dropWhile_eq_nil_iff.mpr fun _ => outside, readDigits?_toDigits]
    exact congrArg some (ext_num_den rfl hone.symm)
  next =>
    rw [List.takeWhile_append_of_pos fun _ => outside,
      List.dropWhile_append_of_pos fun _ => outside]
    simp [readDigits?_toDigits, ofRatio_num_den, Except.toOption]

theorem text_inj : a.text = b.text ↔ a = b := by
  refine ⟨fun h => Option.some.inj ?_, congrArg text⟩
  rw [← ofText?_text a, h, ofText?_text]

theorem value_inj : a.value = b.value ↔ a = b := ⟨value_injective, congrArg value⟩

theorem compare_eq (a b : Scale) : compare a b = compare a.value b.value :=
  Fraction.compare_eq_value a.toFraction b.toFraction

/-- Numerator and denominator are those of the value in lowest terms. -/
theorem num_den_value (a : Scale) : a.value.num = a.num ∧ a.value.den = a.den := by
  have hden : (0 : ℤ) < a.den := Int.natCast_pos.mpr a.den_pos
  have hcast : a.value = ((a.num : ℤ) : ℚ) / ((a.den : ℤ) : ℚ) := by
    simp only [value, Int.cast_natCast]
  rw [hcast]
  exact ⟨Rat.num_div_eq_of_coprime hden a.lowest,
    Int.natCast_inj.mp (Rat.den_div_eq_of_coprime hden a.lowest)⟩

end Scale

/-- A scale as it is put together by the operations on scales. -/
inductive ScaleTerm where
  | ofNat (n : ℕ)
  | pow2 (bits : ℕ)
  | ofRatio (num den : ℕ)
  | times (a b : ScaleTerm)
  | divPrime (a : ScaleTerm) (prime : ℕ)

namespace ScaleTerm
variable {t u : ScaleTerm} {s s' : Scale}

def eval : ScaleTerm → Result Scale
  | ofNat n => .ok (Scale.ofNat n)
  | pow2 bits => .ok (Scale.pow2 bits)
  | ofRatio num den => Scale.ofRatio num den
  | times a b => do return (← a.eval).times (← b.eval)
  | divPrime a prime => do (← a.eval).divPrime prime

/-- Runs the operations on bare fractions, which need not be in lowest terms. -/
def run : ScaleTerm → Result Fraction
  | ofNat n => .ok (.ofNat n)
  | pow2 bits => .ok (.ofNat (Nat.pow 2 bits))
  | ofRatio num den =>
    if h : 0 < den then .ok (Fraction.reduce ⟨num, den, h⟩) else reject (.invalidScale num den)
  | times a b => do return (← a.run).times (← b.run)
  | divPrime a prime => do
    let dividend ← a.run
    if h : 0 < prime then .ok (dividend.quotient (.ofNat prime) h) else faulty .divisionByZero

/-- The rational that the operations denote. -/
def denote : ScaleTerm → ℚ
  | ofNat n => n
  | pow2 bits => 2 ^ bits
  | ofRatio num den => num / den
  | times a b => a.denote * b.denote
  | divPrime a prime => a.denote / prime

/-- No denominator and no divisor is zero. -/
def Proper : ScaleTerm → Prop
  | ofNat _ => True
  | pow2 _ => True
  | ofRatio _ den => 0 < den
  | times a b => a.Proper ∧ b.Proper
  | divPrime a prime => a.Proper ∧ 0 < prime

/-- The fractions are the scales: no operation leaves the lowest terms, so nothing is reduced that
the operations do not reduce themselves. -/
theorem run_eq (t : ScaleTerm) : t.run = t.eval.map Scale.toFraction := by
  induction t with
  | ofNat n => rfl
  | pow2 bits => rfl
  | ofRatio num den =>
    rw [run, eval, Scale.ofRatio]
    split <;> rfl
  | times a b iha ihb =>
    rw [run, eval, iha, ihb]
    cases a.eval <;> cases b.eval <;> rfl
  | divPrime a prime ih =>
    rw [run, eval, ih]
    cases a.eval with
    | error e => rfl
    | ok s =>
      simp only [Except.map, ok_bind, Scale.divPrime]
      split <;> rfl

/-- The operations succeed, with the rational that they denote. -/
theorem eval_succeeds (h : t.Proper) : ∃ s, t.eval = .ok s ∧ s.value = t.denote := by
  induction t with
  | ofNat n => exact ⟨_, rfl, Scale.value_ofNat n⟩
  | pow2 bits => exact ⟨_, rfl, Scale.value_pow2 bits⟩
  | ofRatio num den => exact ⟨_, dif_pos h, Scale.value_reduce num den h⟩
  | times a b iha ihb =>
    obtain ⟨x, hx, hxv⟩ := iha h.1
    obtain ⟨y, hy, hyv⟩ := ihb h.2
    refine ⟨x.times y, ?_, ?_⟩
    · rw [eval, hx, hy]
      rfl
    · rw [Scale.value_times, hxv, hyv, denote]
  | divPrime a prime ih =>
    obtain ⟨x, hx, hxv⟩ := ih h.1
    refine ⟨x.quotient prime h.2, ?_, ?_⟩
    · rw [eval, hx, ok_bind, Scale.divPrime, dif_pos h.2]
    · rw [Scale.value_quotient, hxv, denote]

/-- A scale is the rational that the operations denote, in lowest terms, and its text reads back as
the scale. Two scales are the same, compare as equal, have the same text and can be added at one
level exactly when the operations denote the same rational, and they are ordered as the rationals
are. -/
theorem eval_canonical (h : t.Proper) : ∃ s, t.eval = .ok s ∧ t.run = .ok s.toFraction ∧
    s.value = t.denote ∧ s.num = t.denote.num ∧ s.den = t.denote.den ∧
    s.num.Coprime s.den ∧ 1 ≤ s.den ∧
    s.text = (if s.den = 1 then toString s.num else toString s.num ++ "/" ++ toString s.den) ∧
    Scale.ofText? s.text = some s ∧
    ∀ (u : ScaleTerm) (s' : Scale), u.Proper → u.eval = .ok s' →
      (s = s' ↔ t.denote = u.denote) ∧ ((s == s') = true ↔ t.denote = u.denote) ∧
      (s.text = s'.text ↔ t.denote = u.denote) ∧
      compare s s' = compare t.denote u.denote ∧
      ∀ a b : Metadata, a.scale = s → b.scale = s' → a.level = b.level →
        ((∃ sum, a.add b = .ok sum) ↔ t.denote = u.denote) := by
  obtain ⟨s, hs, hvalue⟩ := eval_succeeds h
  obtain ⟨hnum, hden⟩ := s.num_den_value
  have fraction : t.run = .ok s.toFraction := by rw [run_eq, hs, Except.map]
  refine ⟨s, hs, fraction, hvalue, hvalue ▸ hnum.symm, hvalue ▸ hden.symm, s.lowest, s.den_pos, rfl,
    s.ofText?_text, fun u s' hu hs' => ?_⟩
  obtain ⟨_, hu', hvalue'⟩ := eval_succeeds hu
  obtain rfl := Except.ok.inj (hs'.symm.trans hu')
  rw [← hvalue, ← hvalue', Scale.text_inj, Scale.value_inj, Scale.compare_eq]
  refine ⟨Iff.rfl, beq_iff_eq, Iff.rfl, rfl, fun a b ha hb hl => ?_⟩
  subst ha hb
  simp [Metadata.add_eq_ok, hl]

/-- One rational by two ways: a product of a fraction that is not in lowest terms, divided again, and
a fraction on its own. -/
theorem eval_canonical_of_two_ways :
    (divPrime (times (ofRatio 6 4) (pow2 3)) 8).Proper ∧ (ofRatio 9 6).Proper ∧
    ∃ s, (divPrime (times (ofRatio 6 4) (pow2 3)) 8).eval = .ok s ∧ (ofRatio 9 6).eval = .ok s ∧
      s.text = "3/2" := by
  have proper : (divPrime (times (ofRatio 6 4) (pow2 3)) 8).Proper :=
    ⟨⟨Nat.succ_pos 3, trivial⟩, Nat.succ_pos 7⟩
  have proper' : (ofRatio 9 6).Proper := Nat.succ_pos 5
  obtain ⟨s, hs, -, -, -, -, -, -, -, -, same⟩ := eval_canonical proper
  obtain ⟨s', hs', -⟩ := eval_canonical proper'
  obtain rfl : s = s' := (same _ s' proper' hs').1.mpr (by norm_num [denote])
  refine ⟨proper, proper', s, hs, hs', ?_⟩
  obtain rfl := Except.ok.inj hs'
  decide

end ScaleTerm
end SlotPacking
