import SlotPacking.Json.Token
import SlotPacking.Json.Writer
import SlotPacking.Proofs.NearestFloat

/-!
Number tokens. The text of a finite number is a numeral whose exact value is
rounded back to the number, so no two finite numbers share a text.
-/
namespace SlotPacking
open Binary64

/-- The longest front of a text that is all of one kind is found where it ends. -/
theorem span_append {p : Char → Bool} {cs rest : List Char} (hcs : ∀ c ∈ cs, p c = true)
    (hrest : ∀ c ∈ rest.head?, p c = false) :
    (cs ++ rest).takeWhile p = cs ∧ (cs ++ rest).dropWhile p = rest := by
  rw [List.takeWhile_append_of_pos hcs, List.dropWhile_append_of_pos hcs]
  cases rest with
  | nil => simp
  | cons c rest =>
    have hc : p c = false := hrest c rfl
    simp [hc]

namespace Json.Numeral
variable {cs ds rest e : List Char} {n : Numeral} {negative : Bool}

/-- The exponent of ten that is written behind the digits. -/
def power : Option (Bool × ℕ) → ℤ
  | none => 0
  | some (negative, size) => if negative then -size else size

/-- The rational of the digits, the point and the exponent. The sign does not count. -/
def exactMagnitude (n : Numeral) : ℚ :=
  ofDigits (n.whole ++ n.fraction) * 10 ^ (power n.exponent - n.fraction.length)

/-- The digits in front of the point and behind it as one number. -/
def mantissa (n : Numeral) : ℕ := ofDigits (n.whole ++ n.fraction)

/-- The exponent of ten at the last digit. -/
def place (n : Numeral) : ℤ := power n.exponent - n.fraction.length

theorem exactMagnitude_eq (n : Numeral) : n.exactMagnitude = n.mantissa * 10 ^ n.place := rfl

theorem ofDigits_map (ds : List Char) : ofDigits (ds.map digit) = Nat.ofDigitChars 10 ds 0 := by
  rw [ofDigits, List.foldl_map, Nat.ofDigitChars_eq_foldl]
  simp only [digit, Nat.mul_comm]

theorem splitDigits_append (hd : ∀ c ∈ ds, c.isDigit = true)
    (hr : ∀ c ∈ rest.head?, c.isDigit = false) :
    splitDigits (ds ++ rest) = (ds.map digit, rest) := by
  obtain ⟨taken, dropped⟩ := span_append hd hr
  rw [splitDigits, taken, dropped]

/-- The digits in front of a text, and the rest. -/
theorem splitDigits_eq {digits : List ℕ} (h : splitDigits cs = (digits, rest)) :
    ∃ ds, cs = ds ++ rest ∧ (∀ c ∈ ds, c.isDigit = true) ∧ digits = ds.map digit := by
  obtain ⟨rfl, rfl⟩ := Prod.mk.inj h
  exact ⟨_, List.takeWhile_append_dropWhile.symm, fun c hc => List.mem_takeWhile_imp hc, rfl⟩

theorem exponent?_head {x : Option (Bool × ℕ)} (h : exponent? e = some x) :
    ∀ c ∈ e.head?, c = 'e' ∨ c = 'E' := by
  cases e with
  | nil => simp
  | cons c cs =>
    rintro _ ⟨⟩
    by_contra hc
    unfold exponent? at h
    dsimp only at h
    rw [if_neg hc] at h
    cases h

theorem eq_zero_of_digit {c : Char} (hc : c.isDigit = true) (h : digit c = 0) : c = '0' := by
  simp only [Char.isDigit, Bool.and_eq_true, decide_eq_true_eq, ge_iff_le,
    UInt32.le_iff_toNat_le] at hc
  have low : 48 ≤ c.toNat := hc.1
  have high : c.toNat - 48 = 0 := h
  apply Char.toNat_inj.mp
  have : '0'.toNat = 48 := rfl
  omega

/-- Digits in front of the point: at least one, and none after a leading zero. -/
structure WholePart (ds : List Char) : Prop where
  digits : ∀ c ∈ ds, c.isDigit = true
  nonempty : ds ≠ []
  zero_alone : ds.head? = some '0' → ds = ['0']

namespace WholePart

theorem head_ne_minus (hw : WholePart ds) : ∀ c ∈ (ds ++ rest).head?, c ≠ '-' := by
  obtain ⟨d, ds, rfl⟩ := List.exists_cons_of_ne_nil hw.nonempty
  rintro _ ⟨⟩ rfl
  exact absurd (hw.digits '-' List.mem_cons_self) (by decide)

theorem no_leading_zero {d : ℕ} {digits : List ℕ} (hw : WholePart ds) :
    ds.map digit ≠ 0 :: d :: digits := by
  intro h
  obtain ⟨c, ds, rfl⟩ := List.exists_cons_of_ne_nil hw.nonempty
  obtain ⟨hc, htail⟩ := List.cons.inj h
  obtain rfl := eq_zero_of_digit (hw.digits c List.mem_cons_self) hc
  obtain rfl := (List.cons.inj (hw.zero_alone rfl)).2
  cases htail

theorem take {k : ℕ} (hw : WholePart ds) (hk : 0 < k) : WholePart (ds.take k) := by
  refine ⟨fun c hc => hw.digits c (List.mem_of_mem_take hc), ?_, fun hhead => ?_⟩
  · rw [Ne, List.take_eq_nil_iff]
    exact fun h => h.elim hk.ne' hw.nonempty
  · rw [List.head?_take, if_neg hk.ne'] at hhead
    rw [hw.zero_alone hhead, List.take_of_length_le hk]

end WholePart

/-- A minus sign in front of a numeral without sign changes only its sign. -/
theorem ofChars?_minus (h : ∀ c ∈ cs.head?, c ≠ '-') : ofChars? ('-' :: cs) =
    (ofChars? cs).map fun n => ⟨true, n.whole, n.fraction, n.exponent⟩ := by
  cases cs with
  | nil => rfl
  | cons c cs =>
    have hc : c ≠ '-' := h c rfl
    unfold ofChars?
    simp only [hc, imp_self, implies_true, List.cons.injEq, false_and]
    split
    · rfl
    · rfl
    · split
      · rfl
      · simp only [Option.map_map]
        rfl
    · simp only [Option.map_map]
      rfl

/-- A whole number, with an exponent or without one. -/
theorem ofChars?_whole {x : Option (Bool × ℕ)} (hw : WholePart ds) (he : exponent? e = some x) :
    ofChars? (ds ++ e) = some ⟨false, ds.map digit, [], x⟩ := by
  have parts : splitDigits (ds ++ e) = (ds.map digit, e) :=
    splitDigits_append hw.digits fun c hc => by rcases exponent?_head he c hc with rfl | rfl <;> rfl
  have minus (cs : List Char) : ds ++ e ≠ '-' :: cs := fun h =>
    hw.head_ne_minus '-' (by rw [h]; rfl) rfl
  have nonempty : ds.map digit ≠ [] := by simp [hw.nonempty]
  have point (cs : List Char) : e ≠ '.' :: cs := by
    rintro rfl
    exact absurd (exponent?_head he '.' rfl) (by decide)
  simp only [ofChars?, parts]
  split
  next h => exact absurd (Prod.mk.inj h).1 nonempty
  next h => exact absurd (Prod.mk.inj h).1 hw.no_leading_zero
  next h => exact absurd (Prod.mk.inj h).2 (point _)
  next h =>
    obtain ⟨rfl, rfl⟩ := Prod.mk.inj h
    rw [he, Option.map_some]

/-- A number with digits on both sides of the point. -/
theorem ofChars?_point {fs : List Char} {x : Option (Bool × ℕ)} (hw : WholePart ds)
    (hf : ∀ c ∈ fs, c.isDigit = true) (hne : fs ≠ []) (he : exponent? e = some x) :
    ofChars? (ds ++ '.' :: (fs ++ e)) =
      some ⟨false, ds.map digit, fs.map digit, x⟩ := by
  have parts : splitDigits (ds ++ '.' :: (fs ++ e)) = (ds.map digit, '.' :: (fs ++ e)) :=
    splitDigits_append hw.digits fun c hc => by
      obtain rfl : '.' = c := Option.some.inj hc
      rfl
  have fractionParts : splitDigits (fs ++ e) = (fs.map digit, e) :=
    splitDigits_append hf fun c hc => by rcases exponent?_head he c hc with rfl | rfl <;> rfl
  have minus (cs : List Char) : ds ++ '.' :: (fs ++ e) ≠ '-' :: cs := fun h =>
    hw.head_ne_minus '-' (by rw [h]; rfl) rfl
  have nonempty : ds.map digit ≠ [] := by simp [hw.nonempty]
  have fractionNonempty : fs.map digit ≠ [] := by simp [hne]
  simp only [ofChars?, parts]
  split
  next h => exact absurd (Prod.mk.inj h).1 nonempty
  next h => exact absurd (Prod.mk.inj h).1 hw.no_leading_zero
  next h =>
    obtain ⟨rfl, htail⟩ := Prod.mk.inj h
    obtain rfl := (List.cons.inj htail).2
    rw [fractionParts]
    split
    next h => exact absurd (Prod.mk.inj h).1 fractionNonempty
    next h =>
      obtain ⟨rfl, rfl⟩ := Prod.mk.inj h
      rw [he, Option.map_some]
  next point h => exact absurd (Prod.mk.inj h).2.symm (point _)

/-- A text that is read as a numeral of the given digits and place, and starts with a digit. If it
has an exponent, fewer digits than `width` stand behind the point. -/
def Reads (cs : List Char) (width m : ℕ) (place : ℤ) : Prop :=
  (∀ c ∈ cs.head?, c.isDigit = true) ∧
    ∃ n, ofChars? cs = some n ∧ n.negative = false ∧ n.mantissa = m ∧ n.place = place ∧
      (n.exponent = none ∨ n.fraction.length < width)

theorem WholePart.head_isDigit (hw : WholePart ds) : ∀ c ∈ (ds ++ rest).head?, c.isDigit = true := by
  obtain ⟨d, ds, rfl⟩ := List.exists_cons_of_ne_nil hw.nonempty
  rintro _ ⟨⟩
  exact hw.digits d List.mem_cons_self

theorem reads_whole {x : Option (Bool × ℕ)} {width : ℕ} (hw : WholePart ds)
    (he : exponent? e = some x) (hwidth : 0 < width) :
    Reads (ds ++ e) width (Nat.ofDigitChars 10 ds 0) (power x) := by
  refine ⟨hw.head_isDigit, _, ofChars?_whole hw he, rfl, ?_, ?_, .inr hwidth⟩
  · simp [mantissa, ofDigits_map]
  · simp [place]

theorem reads_point {fs : List Char} {x : Option (Bool × ℕ)} (width : ℕ) (hw : WholePart ds)
    (hf : ∀ c ∈ fs, c.isDigit = true) (hne : fs ≠ []) (he : exponent? e = some x)
    (hwidth : x = none ∨ fs.length < width) :
    Reads (ds ++ '.' :: (fs ++ e)) width
      (Nat.ofDigitChars 10 (ds ++ fs) 0) (power x - fs.length) := by
  refine ⟨hw.head_isDigit, _, ofChars?_point hw hf hne he, rfl, ?_, ?_, by simpa using hwidth⟩
  · simp [mantissa, ← ofDigits_map]
  · simp [place]

theorem isDigit_of_mem_toDigits {n : ℕ} {c : Char} (hc : c ∈ Nat.toDigits 10 n) :
    c.isDigit = true :=
  Nat.isDigit_of_mem_toDigits (by decide) (by decide) hc

/-- The digits of a number have no leading zero. -/
theorem wholePart_toDigits (n : ℕ) : WholePart (Nat.toDigits 10 n) := by
  refine ⟨fun _ => isDigit_of_mem_toDigits, Nat.toDigits_ne_nil, ?_⟩
  induction n using Nat.strongRecOn with
  | ind n ih =>
    intro h
    rw [Nat.toDigits_eq_if (by decide)] at h ⊢
    split at h
    next hlt =>
      rw [if_pos hlt]
      exact congrArg (fun c => [c]) (Option.some.inj h)
    next hge =>
      rw [List.head?_append_of_ne_nil _ Nat.toDigits_ne_nil] at h
      have hzero := congrArg (Nat.ofDigitChars 10 · 0) (ih (n / 10) (by omega) h)
      have : n / 10 = 0 := Nat.ofDigitChars_ten_toDigits.symm.trans hzero
      omega

/-- A written exponent is read as it was. -/
theorem exponent?_written (plus : Bool) (x : ℤ) :
    ∃ y, exponent? ('e' :: ((if x < 0 then ['-'] else if plus then ['+'] else []) ++
      Nat.toDigits 10 x.natAbs)) = some y ∧ power y = x := by
  have hw := wholePart_toDigits x.natAbs
  have size : ofDigits ((Nat.toDigits 10 x.natAbs).map digit) = x.natAbs := by
    rw [ofDigits_map, Nat.ofDigitChars_ten_toDigits]
  generalize Nat.toDigits 10 x.natAbs = ds at *
  have parts : splitDigits (ds ++ []) = (ds.map digit, []) :=
    splitDigits_append hw.digits (by simp)
  rw [List.append_nil] at parts
  have nonempty : ds.map digit ≠ [] := by simp [hw.nonempty]
  have unsigned (c : Char) (hc : c.isDigit = false) (cs : List Char) : ds ≠ c :: cs := by
    rintro rfl
    exact absurd (hw.digits c List.mem_cons_self) (by simp [hc])
  have minus := unsigned '-' rfl
  have plus := unsigned '+' rfl
  refine ⟨some (decide (x < 0), x.natAbs), ?_, ?_⟩
  · split_ifs with hneg <;> simp [exponent?, parts, size, hneg]
  · simp only [power, decide_eq_true_eq]
    split <;> omega

end Json.Numeral

namespace Decimal
open Json Numeral

def value (d : Decimal) : ℚ := d.digits * 10 ^ d.exponent

theorem isDigit_of_mem_zeros {k : ℕ} {c : Char} (hc : c ∈ zeros k) : c.isDigit = true := by
  rw [List.eq_of_mem_replicate hc]
  rfl

theorem wholePart_zero : WholePart ['0'] :=
  ⟨List.forall_mem_singleton.mpr rfl, List.cons_ne_nil _ _, fun _ => rfl⟩

/-- Zeros may follow all digits but a single zero. -/
theorem wholePart_append_zeros {ds : List Char} {k : ℕ} (hw : WholePart ds)
    (hk : ds = ['0'] → k = 0) : WholePart (ds ++ zeros k) := by
  refine ⟨fun c hc => (List.mem_append.mp hc).elim (hw.digits c) isDigit_of_mem_zeros,
    by simp [hw.nonempty], fun hhead => ?_⟩
  rw [List.head?_append_of_ne_nil _ hw.nonempty] at hhead
  have hzero := hw.zero_alone hhead
  rw [hk hzero, hzero]
  rfl

/-- The digits are read at their place. Of a whole number zeros up to the point are read too, with
one behind it. -/
theorem positional_reads {ds : List Char} {e : ℤ} (hw : WholePart ds) (hz : ds = ['0'] → e = 0) :
    Reads (positional ds (e + ds.length)) ds.length (Nat.ofDigitChars 10 ds 0) e ∨
      0 ≤ e ∧ Reads (positional ds (e + ds.length)) ds.length
        (Nat.ofDigitChars 10 ds 0 * 10 ^ (e.toNat + 1)) (-1) := by
  unfold positional
  split_ifs with hfraction hwhole
  · -- All digits stand behind the point.
    left
    generalize hk : (-(e + ds.length)).toNat = k
    have fraction : ∀ c ∈ zeros k ++ ds, c.isDigit = true := fun c hc =>
      (List.mem_append.mp hc).elim isDigit_of_mem_zeros (hw.digits c)
    have reads := reads_point (e := []) (x := none) ds.length wholePart_zero fraction
      (by simp [hw.nonempty]) rfl (.inl rfl)
    have place : power none - (zeros k ++ ds).length = e := by
      simp [power, zeros]
      omega
    have digits : Nat.ofDigitChars 10 (['0'] ++ (zeros k ++ ds)) 0 = Nat.ofDigitChars 10 ds 0 := by
      simp [Nat.ofDigitChars_append, Nat.ofDigitChars_cons, zeros]
    rwa [place, digits, List.append_nil] at reads
  · -- All digits stand in front of the point, with zeros behind them.
    right
    have hk : (e + ds.length).toNat - ds.length = e.toNat := by omega
    have whole : WholePart (ds ++ zeros e.toNat) := wholePart_append_zeros hw fun hzero => by
      have := hz hzero
      omega
    have fraction : ∀ c ∈ ['0'], c.isDigit = true := List.forall_mem_singleton.mpr rfl
    have reads := reads_point (e := []) (x := none) ds.length whole fraction
      (List.cons_ne_nil _ _) rfl (.inl rfl)
    have digits : Nat.ofDigitChars 10 (ds ++ zeros e.toNat ++ ['0']) 0 =
        Nat.ofDigitChars 10 ds 0 * 10 ^ (e.toNat + 1) := by
      simp [Nat.ofDigitChars_append, Nat.ofDigitChars_cons, zeros]
      ring
    rw [digits] at reads
    rw [hk]
    exact ⟨by omega, reads⟩
  · -- The point stands between the digits.
    left
    generalize hk : (e + ds.length).toNat = k
    have whole : WholePart (ds.take k) := hw.take (by omega)
    have fraction : ∀ c ∈ ds.drop k, c.isDigit = true := fun c hc =>
      hw.digits c (List.mem_of_mem_drop hc)
    have rest : ds.drop k ≠ [] := by
      simp
      omega
    have reads := reads_point (e := []) (x := none) ds.length whole fraction rest rfl (.inl rfl)
    have place : power none - (ds.drop k).length = e := by
      simp [power]
      omega
    rwa [place, List.take_append_drop, List.append_nil] at reads

theorem withExponent_reads {ds : List Char} {e : ℤ} (hw : WholePart ds) (plus : Bool) :
    Reads (withExponent plus ds (e + ds.length - 1)) ds.length (Nat.ofDigitChars 10 ds 0) e := by
  obtain ⟨y, hy, hpower⟩ := exponent?_written plus (e + ds.length - 1)
  obtain ⟨d, ds, rfl⟩ := List.exists_cons_of_ne_nil hw.nonempty
  unfold withExponent
  cases ds with
  | nil =>
    have reads := reads_whole hw hy Nat.one_pos
    rw [hpower] at reads
    simpa using reads
  | cons d' ds =>
    have whole : WholePart [d] := hw.take Nat.one_pos
    have fraction : ∀ c ∈ d' :: ds, c.isDigit = true := fun c hc =>
      hw.digits c (List.mem_cons_of_mem d hc)
    have reads := reads_point (d :: d' :: ds).length whole fraction (List.cons_ne_nil d' ds) hy
      (.inr (Nat.lt_succ_self _))
    have place : power y - (d' :: ds).length = e := by
      simp [hpower]
      omega
    rw [place] at reads
    simpa using reads

/-- The digits and the place that the text of a decimal shows: its own, or those of a whole number
with a zero behind the point. -/
inductive Shows (style : FloatStyle) (d : Decimal) : ℕ → ℤ → Prop where
  | digits : Shows style d d.digits d.exponent
  | whole (h : 0 ≤ d.exponent)
      (hfits : d.exponent + (Nat.toDigits 10 d.digits).length ≤ style.greatestPositional + 1) :
    Shows style d (d.digits * 10 ^ (d.exponent.toNat + 1)) (-1)

theorem Shows.value_eq {style : FloatStyle} {d : Decimal} {m : ℕ} {e : ℤ} (h : Shows style d m e) :
    m * 10 ^ e = d.value := by
  cases h with
  | digits => rfl
  | whole h _ =>
    have place : (10 : ℚ) ^ (d.exponent.toNat + 1) * 10 ^ (-1 : ℤ) = 10 ^ d.exponent := by
      rw [← zpow_natCast, ← zpow_add₀ (by norm_num)]
      congr 1
      omega
    rw [value, ← place]
    push_cast
    ring

theorem text_reads (style : FloatStyle) (d : Decimal) (h : d.digits = 0 → d.exponent = 0) :
    ∃ m e, Reads (d.text style) (Nat.toDigits 10 d.digits).length m e ∧ Shows style d m e := by
  have hw := wholePart_toDigits d.digits
  have hz : Nat.toDigits 10 d.digits = ['0'] → d.exponent = 0 := fun hd =>
    h (Nat.ofDigitChars_ten_toDigits.symm.trans (congrArg (Nat.ofDigitChars 10 · 0) hd))
  have reads := positional_reads hw hz
  have reads' := withExponent_reads (e := d.exponent) hw style.plus
  rw [Nat.ofDigitChars_ten_toDigits] at reads reads'
  unfold text
  dsimp only
  split
  next hfirst =>
    rw [sub_add_cancel]
    rcases reads with reads | ⟨hwhole, reads⟩
    · exact ⟨_, _, reads, .digits⟩
    · exact ⟨_, _, reads, .whole hwhole (by omega)⟩
  next => exact ⟨_, _, reads', .digits⟩

theorem zpow_eq_div (e : ℤ) : (10 : ℚ) ^ e = 10 ^ e.toNat / 10 ^ (-e).toNat := by
  rw [← zpow_natCast, ← zpow_natCast, ← zpow_sub₀ (by norm_num)]
  congr 1
  omega

section Shortest
variable {d : Decimal} {bits : ℕ}

/-- A decimal becomes the finite pattern that is next to it. -/
theorem nearestBits_eq_iff (hfinite : bits < infinityBits) :
    d.nearestBits = bits ↔ Rounds d.value bits := by
  have ratio : d.value = ((d.digits * Nat.pow 10 d.exponent.toNat : ℕ) : ℚ) /
      (Nat.pow 10 (-d.exponent).toNat : ℕ) := by
    rw [value, zpow_eq_div, Nat.pow_eq, Nat.pow_eq]
    push_cast
    exact (mul_div_assoc _ _ _).symm
  have rounds := rounds_unboundedBits (d.digits * Nat.pow 10 d.exponent.toNat)
    (Nat.pow 10 (-d.exponent).toNat) (Nat.pow_pos (by decide))
  rw [← ratio] at rounds
  unfold nearestBits
  rw [Binary64.nearestBits_eq]
  generalize unboundedBits _ _ = unbounded at rounds ⊢
  constructor
  · intro h
    obtain rfl : unbounded = bits := by omega
    exact rounds
  · intro h
    obtain rfl := h.unique rounds
    exact Nat.min_eq_left hfinite.le

theorem better_accepts {accepts : Decimal → Bool} {tie : Tie} {half : Ordering}
    {lower upper : Decimal} (h : better accepts tie half lower upper = some d) :
    accepts d = true := by
  unfold better at h
  split at h
  next => cases h
  next hlower _ =>
    obtain rfl := Option.some.inj h
    exact hlower
  next hupper =>
    obtain rfl := Option.some.inj h
    exact hupper
  next hlower hupper =>
    split at h
    · exact Option.some.inj h ▸ hlower
    · exact Option.some.inj h ▸ hupper
    · exact Option.some.inj h ▸ hupper
    · rw [← Option.some.inj h]
      split
      · exact hlower
      · exact hupper

theorem search_eq_some {grid : ℤ → Option Decimal} {fuel : ℕ} {exponent : ℤ}
    (h : search grid fuel exponent = some d) : ∃ e, grid e = some d := by
  induction fuel generalizing exponent with
  | zero => cases h
  | succ fuel ih =>
    unfold search at h
    split at h
    next found hfound => exact ⟨exponent, hfound.trans h⟩
    next => exact ih h

/-- Ten to the power `-k` in fives, over two to the power `k`. -/
theorem value_fives (n k : ℕ) {e : ℤ} (he : e = -k) :
    value ⟨n * Nat.pow 5 k, e⟩ = n / 2 ^ k := by
  have tens : (10 : ℚ) ^ k = 2 ^ k * 5 ^ k := by
    rw [← mul_pow]
    norm_num
  rw [value, he, zpow_neg, zpow_natCast, tens, Nat.pow_eq]
  push_cast
  field_simp

/-- The exact expansion reads back to the number. -/
theorem exact_nearestBits (hfinite : bits < infinityBits) : (exact bits).nearestBits = bits := by
  have least : (-1074 : ℤ) = -(1074 : ℕ) := rfl
  have rounds := Rounds.self bits
  unfold Binary64.value at rounds
  rw [nearestBits_eq_iff hfinite, exact]
  generalize 1074 = k at *
  rw [value_fives _ k least]
  exact rounds

/-- The shortest decimal reads back to the number. -/
theorem shortest_nearestBits (tie : Tie) (hfinite : bits < infinityBits) :
    (shortest tie bits).nearestBits = bits := by
  unfold shortest
  cases h : search (onGrid? tie bits) 20 (topExponent bits) with
  | none => exact exact_nearestBits hfinite
  | some d =>
    obtain ⟨e, hgrid⟩ := search_eq_some h
    unfold onGrid? at hgrid
    exact beq_iff_eq.mp (better_accepts hgrid)

end Shortest

theorem shortest_value_ne_zero (tie : Tie) (hfinite : bits < infinityBits) (hpos : bits ≠ 0) :
    (shortest tie bits).digits ≠ 0 := by
  intro hzero
  have rounds := (nearestBits_eq_iff hfinite).mp (shortest_nearestBits tie hfinite)
  rw [value, hzero, Nat.cast_zero, zero_mul, ← value_zero] at rounds
  exact hpos (rounds.unique (Rounds.self 0))

end Decimal

/-- The decimal that stands for a number of positive sign. -/
def FloatStyle.decimal (style : FloatStyle) (bits : ℕ) : Decimal :=
  if bits = 0 then ⟨0, 0⟩ else Decimal.shortest style.tie bits

theorem FloatStyle.rounds_decimal (style : FloatStyle) {bits : ℕ} (h : bits < infinityBits) :
    Rounds (style.decimal bits).value bits := by
  unfold decimal
  split
  next hzero =>
    rw [Decimal.value, Nat.cast_zero, zero_mul, hzero, ← value_zero]
    exact Rounds.self 0
  next => exact (Decimal.nearestBits_eq_iff h).mp (Decimal.shortest_nearestBits _ h)

/-- The text of a finite number of positive sign is read as a numeral that shows its decimal. -/
theorem FloatStyle.magnitudeText_reads (style : FloatStyle) {bits : ℕ} (h : bits < infinityBits) :
    ∃ m e, Json.Numeral.Reads (style.magnitudeText bits)
        (Nat.toDigits 10 (style.decimal bits).digits).length m e ∧
      (style.decimal bits).Shows style m e := by
  unfold magnitudeText decimal
  split
  next => exact Decimal.text_reads style ⟨0, 0⟩ fun _ => rfl
  next hpos =>
    exact Decimal.text_reads style _ (absurd · (Decimal.shortest_value_ne_zero _ h hpos))

namespace Json
variable {x y : Float}

theorem numberToken_eq (x : Float) : numberToken x = FloatStyle.json.text x := by
  unfold numberToken
  split
  next hzero =>
    unfold FloatStyle.text
    rw [hzero]
    decide
  next => rfl

/-- The numeral has the sign of the number, and its exact size is rounded to the number's. -/
structure Numeral.Denotes (n : Numeral) (x : Float) : Prop where
  sign : n.negative = true ↔ signBit ≤ x.toBits.toNat
  rounds : Rounds n.exactMagnitude (x.toBits.toNat % signBit)

/-- A numeral tells all numbers apart, zeros of either sign included. -/
theorem Numeral.Denotes.unique {n : Numeral} (hx : n.Denotes x) (hy : n.Denotes y) : x = y := by
  have magnitude := hx.rounds.unique hy.rounds
  have sign := hx.sign.symm.trans hy.sign
  have hlt : x.toBits.toNat < 2 ^ 64 := x.toBits.toNat_lt
  have hlt' : y.toBits.toNat < 2 ^ 64 := y.toBits.toNat_lt
  apply Float.toBits_inj.mp
  apply UInt64.toNat_inj.mp
  unfold signBit at *
  omega

/-- The token of a finite number is a numeral of its sign that shows its decimal. -/
theorem numberToken_shows (h : x.isFinite = true) :
    ∃ n, Numeral.ofChars? (numberToken x).toList = some n ∧
      (n.negative = true ↔ signBit ≤ x.toBits.toNat) ∧
      (FloatStyle.json.decimal (x.toBits.toNat % signBit)).Shows .json n.mantissa n.place ∧
      (n.exponent = none ∨ n.fraction.length <
        (Nat.toDigits 10 (FloatStyle.json.decimal (x.toBits.toNat % signBit)).digits).length) := by
  rw [isFinite_iff] at h
  obtain ⟨m, e, ⟨hhead, n, hn, hsign, rfl, rfl, hwidth⟩, shows⟩ :=
    FloatStyle.json.magnitudeText_reads h
  rw [numberToken_eq, FloatStyle.text]
  dsimp only
  rw [if_neg h.not_gt, if_neg h.ne, String.toList_ofList]
  split
  next hneg =>
    have hminus : ∀ c ∈ (FloatStyle.json.magnitudeText (x.toBits.toNat % signBit)).head?,
        c ≠ '-' := by
      rintro _ hc rfl
      exact absurd (hhead '-' hc) (by decide)
    refine ⟨⟨true, n.whole, n.fraction, n.exponent⟩, ?_, by simp [hneg], shows, hwidth⟩
    rw [Numeral.ofChars?_minus hminus, hn, Option.map_some]
  next hpos => exact ⟨n, hn, by simp [hsign, hpos], shows, hwidth⟩

/-- The token of a finite number is a numeral that denotes it. -/
theorem numberToken_reads (h : x.isFinite = true) :
    ∃ n, Numeral.ofChars? (numberToken x).toList = some n ∧ n.Denotes x := by
  obtain ⟨n, hn, hsign, shows, -⟩ := numberToken_shows h
  refine ⟨n, hn, hsign, ?_⟩
  rw [Numeral.exactMagnitude_eq, shows.value_eq]
  exact FloatStyle.json.rounds_decimal (isFinite_iff.mp h)

theorem numberToken_of_not_finite (h : x.isFinite = false) : numberToken x = "null" := by
  have hmax : infinityBits ≤ x.toBits.toNat % signBit := by
    rw [← Nat.not_lt, ← isFinite_iff, h]
    exact Bool.false_ne_true
  rw [numberToken_eq, FloatStyle.text]
  dsimp only
  split
  next => rfl
  next hnan =>
    have hinf : x.toBits.toNat % signBit = infinityBits := by omega
    rw [if_pos hinf]
    split <;> rfl

end Json
end SlotPacking
