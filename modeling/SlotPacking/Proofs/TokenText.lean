import SlotPacking.Json.Token
import SlotPacking.Proofs.NumberTokens

/-!
Written text and its tokens. A part of a written text becomes the same tokens
whatever stands behind it, except that a number must not go on there. So the
tokens of a text are put together as the text is.
-/
namespace SlotPacking.Json
open Token

namespace Numeral
variable {cs ds e : List Char} {n : Numeral}

/-- All characters can stand in a numeral. -/
def Numeric (cs : List Char) : Prop := ∀ c ∈ cs, isNumeric c = true

theorem numeric_of_isDigit (h : ∀ c ∈ ds, c.isDigit = true) : Numeric ds := fun c hc => by
  simp [isNumeric, h c hc]

theorem Numeric.cons {c : Char} (hc : isNumeric c = true) (h : Numeric cs) : Numeric (c :: cs) :=
  List.forall_mem_cons.mpr ⟨hc, h⟩

theorem Numeric.append (h : Numeric ds) (h' : Numeric cs) : Numeric (ds ++ cs) :=
  List.forall_mem_append.mpr ⟨h, h'⟩

theorem exponent?_numeric {x : Option (Bool × ℕ)} (h : exponent? e = some x) : Numeric e := by
  unfold exponent? at h
  split at h
  next => exact fun _ hc => absurd hc List.not_mem_nil
  next c cs =>
    split at h
    next hc =>
      have letter : isNumeric c = true := by rcases hc with rfl | rfl <;> rfl
      split at h
      next negative digitChars hsign =>
      split at h
      next => cases h
      next digits _ hdigits =>
        obtain ⟨ds, rfl, hds, -⟩ := splitDigits_eq hdigits
        rw [List.append_nil] at hsign
        refine Numeric.cons letter ?_
        split at hsign
        next =>
          obtain ⟨-, rfl⟩ := Prod.mk.inj hsign
          exact Numeric.cons rfl (numeric_of_isDigit hds)
        next =>
          obtain ⟨-, rfl⟩ := Prod.mk.inj hsign
          exact Numeric.cons rfl (numeric_of_isDigit hds)
        next =>
          obtain ⟨-, rfl⟩ := Prod.mk.inj hsign
          exact numeric_of_isDigit hds
      next => cases h
    next => cases h

theorem splitDigits_shape {whole : List ℕ} {rest : List Char}
    (hparts : splitDigits cs = (whole, rest)) (hne : whole ≠ []) (hrest : Numeric rest) :
    ∃ c tail, cs = c :: tail ∧ c.isDigit = true ∧ Numeric tail := by
  obtain ⟨ds, rfl, hds, rfl⟩ := splitDigits_eq hparts
  cases ds with
  | nil => exact absurd rfl hne
  | cons d ds =>
    obtain ⟨hd, hds⟩ := List.forall_mem_cons.mp hds
    exact ⟨d, ds ++ rest, rfl, hd, (numeric_of_isDigit hds).append hrest⟩

/-- What is read as a numeral starts with a minus sign or a digit. -/
theorem ofChars?_shape (h : ofChars? cs = some n) :
    ∃ c tail, cs = c :: tail ∧ (c = '-' ∨ c.isDigit = true) ∧ Numeric tail := by
  unfold ofChars? at h
  split at h
  next negative unsigned hsign =>
  have shape : ∃ c tail, unsigned = c :: tail ∧ c.isDigit = true ∧ Numeric tail := by
    split at h
    next => cases h
    next => cases h
    next whole cs hne _ hparts =>
      split at h
      next => cases h
      next fraction behind _ hfraction =>
        obtain ⟨fs, rfl, hfs, -⟩ := splitDigits_eq hfraction
        obtain ⟨x, hx, -⟩ := Option.map_eq_some_iff.mp h
        exact splitDigits_shape hparts hne
          (Numeric.cons rfl ((numeric_of_isDigit hfs).append (exponent?_numeric hx)))
    next whole cs hne _ _ hparts =>
      obtain ⟨x, hx, -⟩ := Option.map_eq_some_iff.mp h
      exact splitDigits_shape hparts hne (exponent?_numeric hx)
  obtain ⟨c, tail, rfl, hc, htail⟩ := shape
  split at hsign
  next =>
    obtain ⟨-, rfl⟩ := Prod.mk.inj hsign
    exact ⟨'-', _, rfl, .inl rfl, Numeric.cons (by simp [isNumeric, hc]) htail⟩
  next =>
    obtain ⟨-, rfl⟩ := Prod.mk.inj hsign
    exact ⟨c, tail, rfl, .inr hc, htail⟩

end Numeral

namespace Piece

theorem hexUnit?_hexDigit : ∀ n < 0x20, hexUnit? '0' '0' (hexDigit (n / 16)) (hexDigit (n % 16)) =
    some n := by
  decide

/-- The piece stands for the character, whatever follows it. -/
def StandsFor (p : Piece) (c : Char) : Prop := ∀ ps, text? (p :: ps) = (text? ps).map (c :: ·)

theorem char_standsFor (c : Char) : StandsFor (.char c) c := fun ps => by simp [text?]

theorem control_standsFor {c : Char} (h : c.toNat < 0x20) : StandsFor (.unit c.toNat) c := by
  have low : ¬ 0xd800 ≤ c.toNat := by omega
  have high : ¬ 0xdc00 ≤ c.toNat := by omega
  rintro (_ | ⟨_ | _, _⟩) <;> simp [text?, low, high]

/-- A character is written as a letter behind a backslash, with the four digits of its number, or
as it is. -/
theorem escaped_cases (c : Char) :
    (∃ letter, escape? letter = some c ∧ escaped c = ['\\', letter]) ∨
    (c.toNat < 0x20 ∧ escaped c =
      ['\\', 'u', '0', '0', hexDigit (c.toNat / 16), hexDigit (c.toNat % 16)]) ∨
    (¬ c.toNat < 0x20 ∧ c ≠ '"' ∧ c ≠ '\\' ∧ escaped c = [c]) := by
  unfold escaped
  split_ifs with quote backslash backspace tab newline formFeed carriageReturn control
  · exact .inl ⟨'"', by rw [quote]; rfl, rfl⟩
  · exact .inl ⟨'\\', by rw [backslash]; rfl, rfl⟩
  · exact .inl ⟨'b', by rw [backspace]; rfl, rfl⟩
  · exact .inl ⟨'t', by rw [tab]; rfl, rfl⟩
  · exact .inl ⟨'n', by rw [newline]; rfl, rfl⟩
  · exact .inl ⟨'f', by rw [formFeed]; rfl, rfl⟩
  · exact .inl ⟨'r', by rw [carriageReturn]; rfl, rfl⟩
  · exact .inr (.inl ⟨control, rfl⟩)
  · exact .inr (.inr ⟨control, quote, backslash, rfl⟩)

theorem scan_letter {letter c : Char} (h : escape? letter = some c) (seen : List Piece)
    (rest : List Char) : scan seen ('\\' :: letter :: rest) = scan (.char c :: seen) rest := by
  have hu : letter ≠ 'u' := by
    rintro rfl
    cases h
  rw [scan]
  · simp [h]
  · exact fun _ _ _ _ _ hletter => absurd hletter hu

/-- A written character is one piece, which stands for the character. -/
theorem scan_escaped (c : Char) : ∃ p, StandsFor p c ∧
    ∀ seen rest, scan seen (escaped c ++ rest) = scan (p :: seen) rest := by
  rcases escaped_cases c with ⟨letter, hletter, h⟩ | ⟨control, h⟩ | ⟨control, quote, backslash, h⟩
  · refine ⟨.char c, char_standsFor c, fun seen rest => ?_⟩
    rw [h]
    exact scan_letter hletter seen rest
  · refine ⟨.unit c.toNat, control_standsFor control, fun seen rest => ?_⟩
    simp [h, scan, hexUnit?_hexDigit c.toNat control]
  · refine ⟨.char c, char_standsFor c, fun seen rest => ?_⟩
    simp [h, scan, backslash, control]

/-- The pieces of a written string end at its quote and stand for its text. -/
theorem scan_flatMap_escaped (cs : List Char) : ∃ ps, text? ps = some cs ∧
    ∀ seen rest, scan seen (cs.flatMap escaped ++ '"' :: rest) = some (seen.reverse ++ ps, rest) := by
  induction cs with
  | nil => exact ⟨[], rfl, fun seen rest => by simp [scan]⟩
  | cons c cs ih =>
    obtain ⟨ps, htext, hscan⟩ := ih
    obtain ⟨p, stands, hp⟩ := scan_escaped c
    refine ⟨p :: ps, by rw [stands, htext, Option.map_some], fun seen rest => ?_⟩
    rw [List.flatMap_cons, List.append_assoc, hp, hscan, List.reverse_cons, List.append_assoc]
    rfl

end Piece

namespace Token
variable {rest : List Char}

theorem scan_quoted (s : String) (rest : List Char) :
    scan ((quoted s).toList ++ rest) = .string (some s) :: scan rest := by
  obtain ⟨ps, htext, hscan⟩ := Piece.scan_flatMap_escaped s.toList
  have split : (quoted s).toList ++ rest = '"' :: (s.toList.flatMap escaped ++ '"' :: rest) := by
    simp [quoted]
  rw [split, Token.scan]
  split
  next pieces behind h =>
    obtain ⟨rfl, rfl⟩ := Prod.mk.inj (Option.some.inj (h.symm.trans (hscan [] rest)))
    simp only [htext, Option.map_some, String.ofList_toList]
  next h =>
    rw [hscan] at h
    cases h

theorem scan_number {cs : List Char} {n : Numeral} (h : Numeral.ofChars? cs = some n)
    (hrest : ∀ c ∈ rest.head?, isNumeric c = false) :
    scan (cs ++ rest) = .number n :: scan rest := by
  obtain ⟨c, tail, rfl, hc, htail⟩ := Numeral.ofChars?_shape h
  obtain ⟨taken, dropped⟩ := span_append htail hrest
  have hne (d : Char) (hd : d.isDigit = false) (hd' : d ≠ '-') : c ≠ d := by
    rintro rfl
    simp [hd, hd'] at hc
  have blank : isBlank c = false := by
    simp [isBlank, hne]
  rw [List.cons_append, Token.scan]
  · simp [blank, hc, taken, dropped, h]
  all_goals
    first
    | exact hne _ rfl (by decide)
    | exact fun _ hc _ => hne _ rfl (by decide) hc

theorem scan_null (rest : List Char) : scan ("null".toList ++ rest) = .word :: scan rest := by
  simp [scan]

/-- A character that is a token by itself. -/
inductive Mark : String → Token → Prop where
  | openBrace : Mark "\x7b" .openBrace
  | closeBrace : Mark "\x7d" .closeBrace
  | openBracket : Mark "[" .openBracket
  | closeBracket : Mark "]" .closeBracket
  | comma : Mark "," .comma
  | colon : Mark ":" .colon

theorem scan_mark {s : String} {t : Token} (h : Mark s t) (rest : List Char) :
    scan (s.toList ++ rest) = t :: scan rest := by
  cases h <;> simp [scan]

end Token

/-- No number goes on in the text. -/
def StopsNumber (cs : List Char) : Prop := ∀ c ∈ cs.head?, isNumeric c = false

/-- The text becomes the tokens whatever stands behind it, as long as no number goes on there. -/
def Lexes (text : String) (tokens : List Token) : Prop :=
  ∀ rest, StopsNumber rest → scan (text.toList ++ rest) = tokens ++ scan rest

section Lexes
variable {s u : String} {t : Token} {ts us : List Token} {x y : Float}

theorem lexes_mark (h : Mark s t) : Lexes s [t] := fun rest _ => scan_mark h rest

theorem stopsNumber_mark (h : Mark s t) (rest : List Char) :
    StopsNumber ((s ++ u).toList ++ rest) := by
  rw [String.toList_append]
  cases h <;> simp [StopsNumber, isNumeric]

theorem Lexes.mark (h : Mark s t) (hu : Lexes u us) : Lexes (s ++ u) (t :: us) := by
  intro rest hrest
  rw [String.toList_append, List.append_assoc, scan_mark h, hu rest hrest]
  rfl

theorem Lexes.quoted (s : String) (hu : Lexes u us) :
    Lexes (quoted s ++ u) (.string (some s) :: us) := by
  intro rest hrest
  rw [String.toList_append, List.append_assoc, scan_quoted, hu rest hrest]
  rfl

/-- A mark behind a text keeps a number from going on. -/
theorem Lexes.append (h : Lexes s ts) {m : String} (hm : Mark m t) (hu : Lexes u us) :
    Lexes (s ++ (m ++ u)) (ts ++ t :: us) := by
  intro rest hrest
  rw [String.toList_append, List.append_assoc, h _ (stopsNumber_mark hm rest),
    hu.mark hm rest hrest, List.append_assoc]

theorem Lexes.append_mark (h : Lexes s ts) (hu : Mark u t) : Lexes (s ++ u) (ts ++ [t]) := by
  have nil : Lexes "" [] := fun _ _ => rfl
  simpa using h.append hu nil

theorem Lexes.scan_eq (h : Lexes s ts) : scan s.toList = ts := by
  have nil : scan [] = [] := by rw [scan]
  simpa [nil] using h [] (by simp [StopsNumber])

/-- The token of a number, `null` for what is not finite. -/
def floatToken (x : Float) : Token :=
  match Numeral.ofChars? (numberToken x).toList with
  | some n => .number n
  | none => .word

theorem lexes_numberToken (x : Float) : Lexes (numberToken x) [floatToken x] := by
  intro rest hrest
  cases hx : x.isFinite with
  | true =>
    obtain ⟨n, hn, -⟩ := numberToken_reads hx
    rw [scan_number hn hrest, floatToken, hn]
    rfl
  | false =>
    rw [floatToken, numberToken_of_not_finite hx, scan_null]
    rfl

theorem floatToken_injective (hx : x.isFinite = true) (hy : y.isFinite = true)
    (h : floatToken x = floatToken y) : x = y := by
  obtain ⟨n, hn, denotes⟩ := numberToken_reads hx
  obtain ⟨n', hn', denotes'⟩ := numberToken_reads hy
  simp only [floatToken, hn, hn', Token.number.injEq] at h
  exact denotes.unique (h ▸ denotes')

/-- Items between commas become their tokens between commas. -/
theorem lexes_items {α : Type} {text : α → String} {tokens : α → List Token} (items : List α)
    (h : ∀ x ∈ items, Lexes (text x) (tokens x)) :
    Lexes (",".intercalate (items.map text)) ([Token.comma].intercalate (items.map tokens)) := by
  induction items with
  | nil => exact fun rest _ => rfl
  | cons x items ih =>
    obtain ⟨hx, hitems⟩ := List.forall_mem_cons.mp h
    cases items with
    | nil =>
      rw [List.map_singleton, List.map_singleton, String.intercalate_singleton,
        List.intercalate_singleton]
      exact hx
    | cons y items =>
      rw [List.map_cons, List.map_cons, List.map_cons, List.map_cons,
        String.intercalate_cons_cons, List.intercalate_cons_cons, String.append_assoc,
        List.append_assoc]
      exact hx.append .comma (ih hitems)

end Lexes
end SlotPacking.Json
