import SlotPacking.Error

/-! Quotients of scales, which need a nonzero divisor. -/
namespace SlotPacking.Scale

/-- The scale `num / den`; a zero denominator is rejected. -/
def ofRatio (num den : Nat) : Result Scale :=
  if h : 0 < den then .ok (reduce num den h) else reject (.invalidScale num den)

/-- The quotient of a scale by a modulus, which faults at zero. -/
def divPrime (a : Scale) (prime : Nat) : Result Scale :=
  if h : 0 < prime then .ok (a.quotient prime h) else faulty .divisionByZero

end SlotPacking.Scale
