import SlotPacking.Error

/-!
Arithmetic of 64-bit words on natural numbers: a product that does not fit is a
fault, and a word read as a signed number has its sign in the top bit. What a
vector takes in bytes is a signed word as well.
-/
namespace SlotPacking.Word

/-- The number of 64-bit words. -/
def bound : Nat := 0x10000000000000000

/-- The product of two words. -/
def mul (a b : Nat) : Result Nat :=
  if a * b < bound then .ok (a * b) else faulty .overflow

/-- A word read as a signed number. -/
def signed (a : Nat) : Int := Int.bmod a bound

/-- The least signed number, which has no opposite. -/
def leastSigned : Int := -0x8000000000000000

/-- Room for a vector of `count` entries, each of `size` bytes. -/
def reserve (count size : Nat) : Result Unit :=
  if count * size < 0x8000000000000000 then .ok () else faulty .capacity

theorem mul_of_lt {a b : Nat} (h : a * b < bound) : mul a b = .ok (a * b) := if_pos h

theorem mul_of_ge {a b : Nat} (h : bound ≤ a * b) : mul a b = faulty .overflow :=
  if_neg (Nat.not_lt.mpr h)

theorem reserve_of_lt {count size : Nat} (h : count * size < 0x8000000000000000) :
    reserve count size = .ok () := if_pos h

theorem reserve_of_ge {count size : Nat} (h : 0x8000000000000000 ≤ count * size) :
    reserve count size = faulty .capacity := if_neg (Nat.not_lt.mpr h)

theorem signed_of_lt {a : Nat} (h : a < 0x8000000000000000) : signed a = a := by
  rw [signed, Int.bmod_def]; unfold bound; omega

end SlotPacking.Word
