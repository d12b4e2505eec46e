import SlotPacking.Binary64.Rounding

/-!
The shortest decimal that reads back to a binary64 number. On a grid of decimals
with one exponent only the two neighbours of a number can matter; the first grid,
from the coarsest on, with a neighbour that is rounded back to the number gives
the fewest digits. Of two such neighbours the nearer is taken.
-/
namespace SlotPacking

/-- The number `digits * 10 ^ exponent`. -/
structure Decimal where
  digits : Nat
  exponent : Int

/-- What becomes of a number halfway between two decimals. -/
inductive Tie where
  | toEven
  | up

namespace Decimal

/-- The bits of the binary64 number nearest to a decimal. -/
def nearestBits (d : Decimal) : Nat :=
  Binary64.nearestBits (d.digits * Nat.pow 10 d.exponent.toNat) (Nat.pow 10 (-d.exponent).toNat)

/-- The exact expansion of a finite number of positive sign. -/
def exact (bits : Nat) : Decimal :=
  ⟨Binary64.scaledValue bits * Nat.pow 5 1074, -1074⟩

/-- The better of two neighbours of a number, of those that are accepted. Of two the nearer is
taken; `half` says on which side of their middle the number lies. -/
def better (accepts : Decimal → Bool) (tie : Tie) (half : Ordering) (lower upper : Decimal) :
    Option Decimal :=
  match accepts lower, accepts upper with
  | false, false => none
  | true, false => some lower
  | false, true => some upper
  | true, true =>
    match half, tie with
    | .lt, _ => some lower
    | .gt, _ => some upper
    | .eq, .up => some upper
    | .eq, .toEven => some (if lower.digits % 2 = 0 then lower else upper)

/-- The better of the two neighbours on the grid with the given exponent that read back to
`bits`. -/
def onGrid? (tie : Tie) (bits : Nat) (exponent : Int) : Option Decimal :=
  let num := Binary64.scaledValue bits * Nat.pow 10 (-exponent).toNat
  let den := Nat.pow 2 1074 * Nat.pow 10 exponent.toNat
  let q := num / den
  better (fun d => d.nearestBits == bits) tie (compare (2 * (num % den)) den) ⟨q, exponent⟩
    ⟨q + 1, exponent⟩

/-- The first hit on `fuel` grids, each ten times finer than the one before. -/
def search (grid : Int → Option Decimal) : Nat → Int → Option Decimal
  | 0, _ => none
  | fuel + 1, exponent =>
    match grid exponent with
    | some d => some d
    | none => search grid fuel (exponent - 1)

/-- An exponent of ten above a nonzero number: `0.30103` exceeds the decimal logarithm of two. -/
def topExponent (bits : Nat) : Int :=
  ((Nat.log2 (Binary64.scaledValue bits) : Int) - 1073) * 30103 / 100000 + 1

/-- The shortest decimal that reads back to the nonzero finite number of these bits. Seventeen
digits are always enough, so twenty grids contain it. -/
def shortest (tie : Tie) (bits : Nat) : Decimal :=
  (search (onGrid? tie bits) 20 (topExponent bits)).getD (exact bits)

end Decimal
end SlotPacking
