import SlotPacking.Decimal.Shortest

/-!
Texts of binary64 numbers. A `FloatStyle` fixes the decisions of a format: which
numbers are written positionally, how an exponent looks, and what stands for the
values that are no numbers.
-/
namespace SlotPacking

structure FloatStyle where
  /-- Positional notation is for first digits with an exponent of ten from `leastPositional` to
  `greatestPositional`. -/
  leastPositional : Int
  greatestPositional : Int
  /-- Whether an exponent that is not negative has a plus sign. -/
  plus : Bool
  tie : Tie
  nan : String
  infinity : String
  negativeInfinity : String

/-- The number tokens of JSON, which has no word for what is not a number. -/
def FloatStyle.json : FloatStyle := ⟨-5, 15, true, .toEven, "null", "null", "null"⟩

/-- One digit before the point and always an exponent. -/
def FloatStyle.scientific : FloatStyle := ⟨0, -1, false, .up, "NaN", "inf", "-inf"⟩

namespace Decimal

def zeros (n : Nat) : List Char := List.replicate n '0'

/-- Digits with a point after the first `whole` of them. Zeros fill both sides of the point. -/
def positional (digits : List Char) (whole : Int) : List Char :=
  if whole ≤ 0 then '0' :: '.' :: (zeros (-whole).toNat ++ digits)
  else if digits.length ≤ whole then
    digits ++ zeros (whole.toNat - digits.length) ++ ['.', '0']
  else digits.take whole.toNat ++ '.' :: digits.drop whole.toNat

/-- Digits with a point after the first, if there are more, and an exponent of ten. -/
def withExponent (plus : Bool) (digits : List Char) (exponent : Int) : List Char :=
  let sign := if exponent < 0 then ['-'] else if plus then ['+'] else []
  let mantissa := match digits with
    | [] => []
    | [d] => [d]
    | d :: ds => d :: '.' :: ds
  mantissa ++ 'e' :: sign ++ Nat.toDigits 10 exponent.natAbs

/-- The text of a decimal, whose first digit stands at the exponent of ten that decides on the
notation. -/
def text (style : FloatStyle) (d : Decimal) : List Char :=
  let digits := Nat.toDigits 10 d.digits
  let first := d.exponent + digits.length - 1
  if style.leastPositional ≤ first ∧ first ≤ style.greatestPositional then
    positional digits (first + 1)
  else withExponent style.plus digits first

end Decimal

namespace FloatStyle

/-- The text of a number of positive sign. -/
def magnitudeText (style : FloatStyle) (bits : Nat) : List Char :=
  if bits = 0 then Decimal.text style ⟨0, 0⟩
  else Decimal.text style (Decimal.shortest style.tie bits)

def text (style : FloatStyle) (x : Float) : String :=
  let bits := x.toBits.toNat
  let negative := Binary64.signBit ≤ bits
  let magnitude := bits % Binary64.signBit
  if Binary64.infinityBits < magnitude then style.nan
  else if magnitude = Binary64.infinityBits then
    if negative then style.negativeInfinity else style.infinity
  else
    let digits := style.magnitudeText magnitude
    String.ofList (if negative then '-' :: digits else digits)

end FloatStyle
end SlotPacking
