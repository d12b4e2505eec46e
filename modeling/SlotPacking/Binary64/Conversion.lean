import SlotPacking.Binary64.Rounding

/-!
Conversion of an exact ratio by integer division. The quotient is found with two
or three bits more than a significand has; these are rounded off together with
the remainder, and a change of the exponent brings the result to its place.
-/
namespace SlotPacking.Binary64

/-- The number of binary digits. -/
def bitLength (n : Nat) : Nat := if n = 0 then 0 else n.log2 + 1

def infinity : Float := Float.ofBits (UInt64.ofNat infinityBits)

/-- Takes the last `k` bits off a quotient and rounds what is left to even at a tie. The remainder
of the division stands behind the last bit. -/
def roundOff (quotient remainder k : Nat) : Nat :=
  let odd := quotient / Nat.pow 2 k % 2 = 1
  let half := quotient / Nat.pow 2 (k - 1) % 2 = 1
  let behind := quotient % Nat.pow 2 (k - 1) ≠ 0 ∨ remainder ≠ 0
  if half ∧ (odd ∨ behind) then quotient / Nat.pow 2 k + 1 else quotient / Nat.pow 2 k

/-- The exponent of a pattern of positive sign, with its bias. -/
def exponentField (bits : Nat) : Nat := bits / hiddenBit

/-- The number whose pattern has the given exponent and fraction. -/
def withExponent (bits exponent : Nat) : Float :=
  Float.ofBits (UInt64.ofNat (exponent * hiddenBit + bits % hiddenBit))

/-- A number of positive sign times `2 ^ e`. -/
def scaleByTwo (x : Float) (e : Int) : Float :=
  if x == 0 || !x.isFinite then x
  else if 3072 < e then infinity
  else if e < -3072 then 0
  else
    -- A subnormal number is made normal first, which is exact.
    let normal := if exponentField x.toBits.toNat = 0 then x * nearest (Nat.pow 2 53) 1 else x
    let bits := normal.toBits.toNat
    let bias := if exponentField x.toBits.toNat = 0 then 53 else 0
    let exponent : Int := exponentField bits - bias + e
    if 2046 < exponent then infinity
    else if 0 < exponent then withExponent bits exponent.toNat
    else if -53 ≤ exponent then
      -- Only the product is rounded, where it is subnormal.
      withExponent bits (exponent + 53).toNat * nearest 1 (Nat.pow 2 53)
    else 0

/-- The ratio `num / den` as a binary64 number. -/
def ofRatio (num den : Nat) : Float :=
  let difference : Int := bitLength num - bitLength den
  if num = 0 then 0
  else if num ≤ Nat.pow 2 53 ∧ den ≤ Nat.pow 2 53 then nearest num 1 / nearest den 1
  else if 1024 < difference then infinity
  else if difference < -1075 then 0
  else
    let shift := max difference (-1021) - 55
    let num := num * Nat.pow 2 (-shift).toNat
    let den := den * Nat.pow 2 shift.toNat
    let spare := (max (bitLength (num / den) : Int) (-1021 - shift) - 53).toNat
    let significand := roundOff (num / den) (num % den) spare
    scaleByTwo (nearest (significand * Nat.pow 2 spare) 1) shift

end SlotPacking.Binary64
