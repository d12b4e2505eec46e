/-!
Exact arithmetic on fractions of naturals. A product is not reduced: factors in
lowest terms are reduced against each other first, and nothing is left to cancel.
Two fractions are compared by their integer parts and, where these agree, by the
reciprocals of what is left over, as in Euclid's algorithm.
-/
namespace SlotPacking

structure Fraction where
  num : Nat
  den : Nat
  den_pos : 0 < den
  deriving DecidableEq

namespace Fraction
variable {a b : Fraction}

theorem ext_num_den (hn : a.num = b.num) (hd : a.den = b.den) : a = b := by
  cases a; cases b; simp_all

/-- Numerator and denominator have no common divisor. -/
def IsLowest (a : Fraction) : Prop := a.num.Coprime a.den

instance (a : Fraction) : Decidable a.IsLowest :=
  inferInstanceAs (Decidable (a.num.gcd a.den = 1))

def ofNat (n : Nat) : Fraction := ⟨n, 1, Nat.one_pos⟩

theorem isLowest_ofNat (n : Nat) : (ofNat n).IsLowest := Nat.coprime_one_right n

/-- The fraction in lowest terms. -/
def reduce (a : Fraction) : Fraction :=
  if a.num = 0 then ofNat 0
  else if a.num = a.den then ofNat 1
  else ⟨a.num / a.num.gcd a.den, a.den / a.num.gcd a.den,
    Nat.div_gcd_pos_of_pos_right a.num a.den_pos⟩

/-- The exits for zero and one give what the division by the common divisor gives. -/
theorem reduce_eq (a : Fraction) : a.reduce =
    ⟨a.num / a.num.gcd a.den, a.den / a.num.gcd a.den,
    Nat.div_gcd_pos_of_pos_right a.num a.den_pos⟩ := by
  unfold reduce
  split
  next h => apply ext_num_den <;> simp [ofNat, h, Nat.div_self a.den_pos]
  next =>
    split
    next h => apply ext_num_den <;> simp [ofNat, h, Nat.div_self a.den_pos]
    next => rfl

theorem isLowest_reduce (a : Fraction) : a.reduce.IsLowest := by
  rw [reduce_eq]
  exact Nat.coprime_div_gcd_div_gcd (Nat.gcd_pos_of_pos_right a.num a.den_pos)

/-- The product. Each numerator is reduced against the other denominator, and that is all. -/
def times (a b : Fraction) : Fraction where
  num := a.num / a.num.gcd b.den * (b.num / a.den.gcd b.num)
  den := a.den / a.den.gcd b.num * (b.den / a.num.gcd b.den)
  den_pos := Nat.mul_pos (Nat.div_gcd_pos_of_pos_left b.num a.den_pos)
    (Nat.div_gcd_pos_of_pos_right a.num b.den_pos)

/-- Factors in lowest terms have a product in lowest terms. -/
theorem IsLowest.times (ha : a.IsLowest) (hb : b.IsLowest) : (a.times b).IsLowest := by
  have left : Nat.Coprime (a.num / a.num.gcd b.den) (b.den / a.num.gcd b.den) :=
    Nat.coprime_div_gcd_div_gcd (Nat.gcd_pos_of_pos_right _ b.den_pos)
  have right : Nat.Coprime (a.den / a.den.gcd b.num) (b.num / a.den.gcd b.num) :=
    Nat.coprime_div_gcd_div_gcd (Nat.gcd_pos_of_pos_left _ a.den_pos)
  have own : Nat.Coprime (a.num / a.num.gcd b.den) (a.den / a.den.gcd b.num) :=
    (ha.coprime_div_left (Nat.gcd_dvd_left _ _)).coprime_div_right (Nat.gcd_dvd_left _ _)
  have own' : Nat.Coprime (b.num / a.den.gcd b.num) (b.den / a.num.gcd b.den) :=
    (hb.coprime_div_left (Nat.gcd_dvd_right _ _)).coprime_div_right (Nat.gcd_dvd_right _ _)
  exact Nat.Coprime.mul_left (own.mul_right left) (right.symm.mul_right own')

/-- The quotient, in lowest terms. Numerators and denominators are reduced against each other
first. -/
def quotient (a b : Fraction) (h : 0 < b.num) : Fraction :=
  reduce
    { num := a.num / a.num.gcd b.num * (b.den / a.den.gcd b.den)
      den := a.den / a.den.gcd b.den * (b.num / a.num.gcd b.num)
      den_pos := Nat.mul_pos (Nat.div_gcd_pos_of_pos_left b.den a.den_pos)
        (Nat.div_gcd_pos_of_pos_right a.num h) }

theorem num_reduce_pos (h : 0 < a.num) : 0 < a.reduce.num := by
  rw [reduce_eq]
  exact Nat.div_gcd_pos_of_pos_left a.den h

theorem num_times_pos (ha : 0 < a.num) (hb : 0 < b.num) : 0 < (a.times b).num :=
  Nat.mul_pos (Nat.div_gcd_pos_of_pos_left b.den ha) (Nat.div_gcd_pos_of_pos_right a.den hb)

theorem num_quotient_pos (h : 0 < b.num) (ha : 0 < a.num) : 0 < (a.quotient b h).num :=
  num_reduce_pos (Nat.mul_pos (Nat.div_gcd_pos_of_pos_left b.num ha)
    (Nat.div_gcd_pos_of_pos_right a.den b.den_pos))

/-- The order of two fractions. With one denominator the numerators decide, with one numerator the
denominators. Else the integer parts decide or, where they agree, what is left over. -/
def compare (a b : Fraction) : Ordering :=
  if a.den = b.den then Ord.compare a.num b.num
  else if a.num = b.num then
    if a.num = 0 then .eq else (Ord.compare a.den b.den).swap
  else
    match Ord.compare (a.num / a.den) (b.num / b.den) with
    | .lt => .lt
    | .gt => .gt
    | .eq =>
      if ha : a.num % a.den = 0 then
        if b.num % b.den = 0 then .eq else .lt
      else if hb : b.num % b.den = 0 then .gt
      else
        (compare ⟨a.den, a.num % a.den, Nat.pos_of_ne_zero ha⟩
          ⟨b.den, b.num % b.den, Nat.pos_of_ne_zero hb⟩).swap
termination_by a.den
decreasing_by exact Nat.mod_lt a.num a.den_pos

end Fraction
end SlotPacking
