import SlotPacking.PrimeChain
import SlotPacking.Scale.Ratio

/-!
Scale and level of a value of the circuit. Every operation gives a fresh value
and keeps the rules of the leveled scheme: operands meet at one level, addition
needs one scale, and a rescale leaves at least level one.
-/
namespace SlotPacking

structure Metadata where
  scale : Scale
  level : Nat
  scale_pos : scale.IsPositive
  level_pos : 0 < level

namespace Metadata

@[ext] theorem ext {a b : Metadata} (hs : a.scale = b.scale) (hl : a.level = b.level) : a = b := by
  cases a; cases b; simp_all

instance : DecidableEq Metadata := fun a b =>
  if h : a.scale = b.scale ∧ a.level = b.level then isTrue (ext h.1 h.2)
  else isFalse fun e => h (e ▸ ⟨rfl, rfl⟩)

/-- Metadata of a fresh encoding. -/
def new (scale : Scale) (level : Nat) : Result Metadata :=
  if hl : 0 < level then
    if hs : scale.IsPositive then .ok ⟨scale, level, hs, hl⟩
    else reject (.invalidScale scale.num scale.den)
  else reject (.invalidLevel level)

/-- Divides the scale by the modulus of the level and goes down one level. -/
def rescale (a : Metadata) (chain : PrimeChain) : Result Metadata := do
  if a.level = 1 then reject (.invalidLevel 0) else
  let prime ← chain.atLevel a.level
  let scale ← a.scale.divPrime prime
  new scale (a.level - 1)

/-- The slot-wise product. The level stays; callers rescale. -/
def multiply (a b : Metadata) : Result Metadata :=
  if a.level = b.level then
    .ok ⟨a.scale.times b.scale, a.level, Scale.times_isPositive a.scale_pos b.scale_pos,
      a.level_pos⟩
  else reject (.levelMismatch a.level b.level)

/-- A product always passes the check of the metadata it gives. -/
theorem multiply_eq_new (a b : Metadata) : a.multiply b =
    if a.level = b.level then new (a.scale.times b.scale) a.level
    else reject (.levelMismatch a.level b.level) := by
  rw [multiply, new, dif_pos a.level_pos, dif_pos (Scale.times_isPositive a.scale_pos b.scale_pos)]

def add (a b : Metadata) : Result Metadata :=
  if a.level = b.level then
    if a.scale == b.scale then .ok a else reject (.scaleMismatch a.scale b.scale)
  else reject (.levelMismatch a.level b.level)

/-- A sum always passes the check of the metadata it gives. -/
theorem add_eq_new (a b : Metadata) : a.add b =
    if a.level = b.level then
      if a.scale == b.scale then new a.scale a.level else reject (.scaleMismatch a.scale b.scale)
    else reject (.levelMismatch a.level b.level) := by
  rw [add, new, dif_pos a.level_pos, dif_pos a.scale_pos]

/-- A rotation changes neither scale nor level. -/
def afterRotation (a : Metadata) : Metadata := a

/-- A squaring, followed by two rescales. -/
def square (a : Metadata) (chain : PrimeChain) : Result Metadata := do
  let product ← a.multiply a
  let once ← product.rescale chain
  once.rescale chain

/-- The sum of `count` copies of one term, added one after another. -/
def sumOfCopies (term : Metadata) (count : Nat) : Result Metadata :=
  (List.replicate (count - 1) term).foldlM add term

end Metadata
end SlotPacking
