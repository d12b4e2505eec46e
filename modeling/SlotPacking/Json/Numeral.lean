import SlotPacking.Word

/-!
Numbers as JSON writes them, and their binary64 values. A value is found with a
64-bit significand and one multiplication or division by a power of ten in
binary64 arithmetic: digits that no longer fit the significand only count for
the exponent. The result is rounded up to three times, so it can miss the
nearest number by two units in the last place.
-/
namespace SlotPacking.Json

structure Numeral where
  negative : Bool
  whole : List Nat
  /-- The digits behind the point, none if there is no point. -/
  fraction : List Nat
  /-- The sign and the size of an exponent. -/
  exponent : Option (Bool × Nat)

namespace Numeral

def digit (c : Char) : Nat := c.toNat - '0'.toNat

def ofDigits (digits : List Nat) : Nat := digits.foldl (fun n d => n * 10 + d) 0

/-- The leading digits of a text and what follows them. -/
def splitDigits (cs : List Char) : List Nat × List Char :=
  ((cs.takeWhile Char.isDigit).map digit, cs.dropWhile Char.isDigit)

/-- An exponent that makes up the whole text, if the text is not empty. -/
def exponent? : List Char → Option (Option (Bool × Nat))
  | [] => some none
  | e :: cs =>
    if e = 'e' ∨ e = 'E' then
      let (negative, cs) := match cs with
        | '-' :: cs => (true, cs)
        | '+' :: cs => (false, cs)
        | cs => (false, cs)
      match splitDigits cs with
      | ([], _) => none
      | (digits, []) => some (some (negative, ofDigits digits))
      | _ => none
    else none

/-- Reads a text that is a number from its first to its last character. -/
def ofChars? (cs : List Char) : Option Numeral :=
  let (negative, cs) := match cs with
    | '-' :: cs => (true, cs)
    | cs => (false, cs)
  match splitDigits cs with
  | ([], _) => none
  | (0 :: _ :: _, _) => none
  | (whole, '.' :: cs) =>
    match splitDigits cs with
    | ([], _) => none
    | (fraction, cs) => (exponent? cs).map fun e => ⟨negative, whole, fraction, e⟩
  | (whole, cs) => (exponent? cs).map fun e => ⟨negative, whole, [], e⟩

/-- The value of a numeral without sign, point and exponent that fits a 64-bit word. -/
def toWord? (n : Numeral) : Option Nat :=
  let value := ofDigits n.whole
  if n.negative = false ∧ n.fraction = [] ∧ n.exponent = none ∧ value < Word.bound then
    some value
  else none

/-- Appends digits to a significand while it fits a 64-bit word, and gives back the rest. -/
def extend : Nat → List Nat → Nat × List Nat
  | m, [] => (m, [])
  | m, d :: ds => if m * 10 + d < Word.bound then extend (m * 10 + d) ds else (m, d :: ds)

/-- The significand and the exponent of ten of the digits. -/
def significand (n : Numeral) : Nat × Int :=
  let (m, unread) := extend 0 n.whole
  let (m, unreadFraction) := extend m n.fraction
  (m, unread.length - (n.fraction.length - unreadFraction.length : Nat))

/-- The powers of ten that are finite binary64 numbers. -/
def powersOfTen : Vector Float 309 := Vector.ofFn fun i => Binary64.nearest (Nat.pow 10 i) 1

/-- A number times a power of ten, none if it becomes infinite. Exponents beyond the powers at
hand are worked off by dividing by the greatest of them. -/
def scaleByTen (x : Float) (e : Int) : Option Float :=
  if h : e.natAbs < 309 then
    if 0 ≤ e then
      let y := x * powersOfTen[e.natAbs]
      if y.isInf then none else some y
    else some (x / powersOfTen[e.natAbs])
  else if x == 0 then some x
  else if 0 ≤ e then none
  else scaleByTen (x / powersOfTen[308]) (e + 308)
termination_by e.natAbs
decreasing_by omega

/-- The size of the number, none if it exceeds the finite binary64 numbers. -/
def magnitude? (n : Numeral) : Option Float :=
  let (m, e) := n.significand
  let x := Binary64.nearest m 1
  match n.exponent with
  | none => scaleByTen x e
  | some (negative, size) =>
    if size < 0x80000000 then scaleByTen x (if negative then e - size else e + size)
    else if m ≠ 0 ∧ negative = false then none
    else some 0

def toFloat? (n : Numeral) : Option Float :=
  n.magnitude?.map fun x => if n.negative then -x else x

end Numeral
end SlotPacking.Json
