import SlotPacking.Binary64.Conversion
import SlotPacking.Scale.Fraction

/-!
Exact scales: fractions in lowest terms. Every operation keeps them so, and two
scales are equal exactly when they stand for the same rational, so equality,
order and text can all be read off numerator and denominator.
-/
namespace SlotPacking

/-- The text of a fraction: a denominator of one is not written. -/
def fractionText (num den : Nat) : String :=
  if den = 1 then toString num else s!"{num}/{den}"

structure Scale extends Fraction where
  lowest : toFraction.IsLowest
  deriving DecidableEq

namespace Scale
variable {a b : Scale}

theorem ext_num_den (hn : a.num = b.num) (hd : a.den = b.den) : a = b := by
  obtain ⟨_, _⟩ := a
  obtain ⟨_, _⟩ := b
  simpa using Fraction.ext_num_den hn hd

/-- The scale `num / den` in lowest terms. -/
def reduce (num den : Nat) (h : 0 < den) : Scale :=
  ⟨Fraction.reduce ⟨num, den, h⟩, Fraction.isLowest_reduce _⟩

def ofNat (n : Nat) : Scale := ⟨.ofNat n, Fraction.isLowest_ofNat n⟩

def pow2 (bits : Nat) : Scale := ofNat (Nat.pow 2 bits)

def times (a b : Scale) : Scale := ⟨a.toFraction.times b.toFraction, a.lowest.times b.lowest⟩

/-- The quotient of a scale by a positive integer. -/
def quotient (a : Scale) (n : Nat) (h : 0 < n) : Scale :=
  ⟨a.toFraction.quotient (.ofNat n) h, Fraction.isLowest_reduce _⟩

def IsPositive (a : Scale) : Prop := 0 < a.num

instance (a : Scale) : Decidable a.IsPositive := inferInstanceAs (Decidable (0 < a.num))

instance : Ord Scale := ⟨fun a b => a.toFraction.compare b.toFraction⟩

/-- Scales are tested for equality by their order. -/
instance : BEq Scale := ⟨fun a b => compare a b == .eq⟩

/-- The exact text, `n` or `n/d`. -/
def text (a : Scale) : String := fractionText a.num a.den

instance : ToString Scale := ⟨text⟩

/-- The binary64 number nearest to the scale. -/
def toFloat (a : Scale) : Float := Binary64.ofRatio a.num a.den

@[simp] theorem reduce_num (num den : Nat) (h : 0 < den) :
    (reduce num den h).num = num / num.gcd den :=
  congrArg Fraction.num (Fraction.reduce_eq ⟨num, den, h⟩)

@[simp] theorem reduce_den (num den : Nat) (h : 0 < den) :
    (reduce num den h).den = den / num.gcd den :=
  congrArg Fraction.den (Fraction.reduce_eq ⟨num, den, h⟩)

theorem times_isPositive (ha : a.IsPositive) (hb : b.IsPositive) : (a.times b).IsPositive :=
  Fraction.num_times_pos ha hb

theorem quotient_isPositive {n : Nat} {h : 0 < n} (ha : a.IsPositive) :
    (a.quotient n h).IsPositive :=
  Fraction.num_quotient_pos h ha

end Scale
end SlotPacking
