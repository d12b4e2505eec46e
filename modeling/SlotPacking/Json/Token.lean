import SlotPacking.Json.Numeral

/-!
JSON text as a list of tokens. Where the text cannot be continued as JSON the
list ends with `bad`, so that a reader meets what comes before it first.
-/
namespace SlotPacking.Json

inductive Token where
  | openBrace
  | closeBrace
  | openBracket
  | closeBracket
  | comma
  | colon
  /-- One of `true`, `false` and `null`. -/
  | word
  /-- A string, with its text unless a surrogate in it stands alone. -/
  | string (text : Option String)
  | number (value : Numeral)
  | bad

/-- A part of a string: a character, or the UTF-16 unit of an escape. -/
inductive Piece where
  | char (c : Char)
  | unit (u : Nat)

namespace Piece

/-- The text of the pieces; two units of a surrogate pair make one character. -/
def text? : List Piece → Option (List Char)
  | [] => some []
  | .char c :: rest => (text? rest).map (c :: ·)
  | .unit high :: .unit low :: rest =>
    if 0xd800 ≤ high ∧ high < 0xdc00 then
      if 0xdc00 ≤ low ∧ low < 0xe000 then
        (text? rest).map (Char.ofNat (0x10000 + (high - 0xd800) * 0x400 + (low - 0xdc00)) :: ·)
      else none
    else if 0xdc00 ≤ high ∧ high < 0xe000 then none
    else (text? (.unit low :: rest)).map (Char.ofNat high :: ·)
  | .unit u :: rest =>
    if 0xd800 ≤ u ∧ u < 0xe000 then none else (text? rest).map (Char.ofNat u :: ·)

/-- The character that a letter stands for behind a backslash. -/
def escape? : Char → Option Char
  | '"' => some '"'
  | '\\' => some '\\'
  | '/' => some '/'
  | 'b' => some '\x08'
  | 'f' => some '\x0c'
  | 'n' => some '\n'
  | 'r' => some '\r'
  | 't' => some '\t'
  | _ => none

def hexDigit? (c : Char) : Option Nat :=
  if '0' ≤ c ∧ c ≤ '9' then some (c.toNat - '0'.toNat)
  else if 'a' ≤ c ∧ c ≤ 'f' then some (c.toNat - 'a'.toNat + 10)
  else if 'A' ≤ c ∧ c ≤ 'F' then some (c.toNat - 'A'.toNat + 10)
  else none

def hexUnit? (a b c d : Char) : Option Nat := do
  return (((← hexDigit? a) * 16 + (← hexDigit? b)) * 16 + (← hexDigit? c)) * 16 + (← hexDigit? d)

/-- The pieces up to the closing quote, in reverse before `seen`, and the text behind it. -/
def scan (seen : List Piece) : List Char → Option (List Piece × List Char)
  | [] => none
  | '"' :: rest => some (seen.reverse, rest)
  | '\\' :: 'u' :: a :: b :: c :: d :: rest =>
    match hexUnit? a b c d with
    | some u => scan (.unit u :: seen) rest
    | none => none
  | '\\' :: c :: rest =>
    match escape? c with
    | some x => scan (.char x :: seen) rest
    | none => none
  | c :: rest => if c.toNat < 0x20 ∨ c = '\\' then none else scan (.char c :: seen) rest

theorem scan_length {seen pieces : List Piece} {cs rest : List Char}
    (h : scan seen cs = some (pieces, rest)) : rest.length < cs.length := by
  fun_induction scan seen cs <;> simp_all <;> omega

end Piece

namespace Token

def isBlank (c : Char) : Bool := c = ' ' || c = '\t' || c = '\n' || c = '\r'

def isNumeric (c : Char) : Bool :=
  c.isDigit || c = '-' || c = '+' || c = '.' || c = 'e' || c = 'E'

/-- The tokens of a text. -/
def scan : List Char → List Token
  | [] => []
  | '{' :: rest => .openBrace :: scan rest
  | '}' :: rest => .closeBrace :: scan rest
  | '[' :: rest => .openBracket :: scan rest
  | ']' :: rest => .closeBracket :: scan rest
  | ',' :: rest => .comma :: scan rest
  | ':' :: rest => .colon :: scan rest
  | 't' :: 'r' :: 'u' :: 'e' :: rest => .word :: scan rest
  | 'f' :: 'a' :: 'l' :: 's' :: 'e' :: rest => .word :: scan rest
  | 'n' :: 'u' :: 'l' :: 'l' :: rest => .word :: scan rest
  | '"' :: rest =>
    match h : Piece.scan [] rest with
    | some (pieces, behind) =>
      have := Piece.scan_length h
      .string ((Piece.text? pieces).map String.ofList) :: scan behind
    | none => [.bad]
  | c :: rest =>
    if isBlank c then scan rest
    else if c = '-' ∨ c.isDigit then
      match Numeral.ofChars? (c :: rest.takeWhile isNumeric) with
      | some n =>
        have : (rest.dropWhile isNumeric).length ≤ rest.length :=
          (List.dropWhile_sublist _).length_le
        .number n :: scan (rest.dropWhile isNumeric)
      | none => [.bad]
    else [.bad]
termination_by cs => cs.length

end Token
end SlotPacking.Json
