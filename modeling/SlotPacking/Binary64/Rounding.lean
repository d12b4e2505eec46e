/-!
Rounding of an exact ratio of naturals to a binary64 number. A finite number of
this format is `m * 2^q / 2^1074` with `m ≤ 2^53`, and its bit pattern is then
`q * 2^52 + m`: the carry of a significand that reaches `2^53` moves into the
exponent by itself, and subnormal numbers are the case `q = 0`.
-/
namespace SlotPacking.Binary64

/-- The integer nearest to `num / den`, a half going to the even neighbour. -/
def roundHalfEven (num den : Nat) : Nat :=
  let q := num / den
  let r := num % den
  if 2 * r < den then q
  else if den < 2 * r then q + 1
  else q + q % 2

/-- The binary exponent `q` of the spacing around `num / den`, in units of the
least subnormal number: the least one whose significand has at most 53 bits. -/
def spacing (num den : Nat) : Nat :=
  Nat.log2 (num * Nat.pow 2 1074 / den) - 52

/-- The leading bit of a full significand, `2^52`; it is not stored. -/
def hiddenBit : Nat := 0x10000000000000

/-- The bit of the sign, `2^63`. -/
def signBit : Nat := 0x8000000000000000

/-- The bit pattern of positive infinity. -/
def infinityBits : Nat := 0x7ff0000000000000

/-- The bits of the number nearest to `num / den`, of positive sign: a tie goes
to the even significand, and what lies beyond the finite numbers is infinite. -/
def nearestBits (num den : Nat) : Nat :=
  let q := spacing num den
  let m := roundHalfEven (num * Nat.pow 2 (1074 - q)) (den * Nat.pow 2 (q - 1074))
  min (q * hiddenBit + m) infinityBits

/-- The number nearest to `num / den`. -/
def nearest (num den : Nat) : Float :=
  Float.ofBits (UInt64.ofNat (nearestBits num den))

/-- The number nearest to the quotient of two integers of which the second is positive. -/
def nearestSigned (num : Int) (den : Nat) : Float :=
  if num < 0 then -nearest num.natAbs den else nearest num.natAbs den

/-- The ratio `num / 2^1074` that a magnitude's bits stand for, as its numerator. -/
def scaledValue (bits : Nat) : Nat :=
  if bits < hiddenBit then bits
  else (hiddenBit + bits % hiddenBit) * Nat.pow 2 (bits / hiddenBit - 1)

end SlotPacking.Binary64
