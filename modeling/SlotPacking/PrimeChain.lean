import SlotPacking.Error

/-!
The chain of level primes. The prime at a level is the modulus that the next
rescale of a value at this level consumes, so level one holds the first prime.
-/
namespace SlotPacking

structure PrimeChain where
  primes : Array Nat
  deriving DecidableEq

namespace PrimeChain

def length (chain : PrimeChain) : Nat := chain.primes.size

def isEmpty (chain : PrimeChain) : Bool := chain.primes.isEmpty

/-- The modulus consumed by a rescale at `level`. -/
def atLevel (chain : PrimeChain) (level : Nat) : Result Nat :=
  if level = 0 then reject (.invalidLevel 0)
  else match chain.primes[level - 1]? with
    | some p => .ok p
    | none => reject (.levelOutOfRange level chain.length)

/-- The moduli at `level` and below it, by which a linear layer at `level` is scaled. -/
def matrixPrimes (chain : PrimeChain) (level : Nat) : Result (Nat × Nat) := do
  if level < 2 then reject (.invalidLevel (level - 1)) else
  let high ← chain.atLevel level
  let low ← chain.atLevel (level - 1)
  return (high, low)

/-- The chain shared with the evaluation engine. -/
def standard : PrimeChain where
  primes := #[
    204865537, 205651969, 206307329, 207880193, 209059841, 210370561, 211025921, 211812353,
    214171649, 215482369, 215744513, 216137729, 216924161, 217317377, 218628097, 219676673,
    220594177, 221249537, 222035969, 222167041, 222953473, 223215617, 224002049, 224133121,
    225574913, 228065281, 228458497, 228720641, 230424577, 230686721, 230817793, 231473153,
    232390657, 232652801, 234356737, 235798529, 236584961, 236716033, 239337473, 239861761,
    240648193, 241827841, 244842497, 244973569, 245235713, 245760001, 246415361, 249561089,
    253100033, 253493249, 254279681, 256376833, 256770049, 257949697, 258605057, 260571137,
    260702209, 261488641, 261881857, 263323649, 263454721, 264634369, 265420801, 268042241]

end PrimeChain
end SlotPacking
