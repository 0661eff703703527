import Calculator.Numeric.Nearest

/-!
# Logarithm and exponential in fixed point

A natural number or integer `a` stands for `a / 2 ^ bits`. The logarithm comes from the series of
the inverse hyperbolic tangent at an argument of at most one third, the exponential from its power
series below `log 2`. Each step drops less than one unit of the last place, so that the results
carry errors of a few thousand units, and more bits make them as exact as a caller needs.
-/

namespace Calculator.FixedPoint

/-- One, as a fixed-point number. -/
def one (bits : Nat) : Nat := 1 <<< bits

/-- The product. -/
def mul (bits a b : Nat) : Nat := a * b / one bits

/-- The first terms of `power * (1 / odd + square / (odd + 2) + square ^ 2 / (odd + 4) + ...)`. -/
def oddSeries (bits square : Nat) : (terms power odd : Nat) → Nat
  | 0, _, _ => 0
  | terms + 1, power, odd =>
    power / odd + oddSeries bits square terms (mul bits power square) (odd + 2)

/-- The inverse hyperbolic tangent of `t`, which is at most one third. -/
def artanh (bits t : Nat) : Nat :=
  oddSeries bits (mul bits t t) (bits / 3 + 2) t 1

/-- The logarithm of two. -/
def log2 (bits : Nat) : Nat := 2 * artanh bits (one bits / 3)

/-- The natural logarithm of a positive rational. -/
def log (bits : Nat) (q : Rat) : Int :=
  let k := binade q
  let z := q / (2 : Rat) ^ k
  let t := ((z - 1) / (z + 1) * one bits).floor.toNat
  k * log2 bits + 2 * artanh bits t

/-- The first terms of `term * (1 + r / n + r ^ 2 / (n * (n + 1)) + ...)`. -/
def powerSeries (bits r : Nat) : (terms term n : Nat) → Nat
  | 0, _, _ => 0
  | terms + 1, term, n => term + powerSeries bits r terms (mul bits term r / n) (n + 1)

/-- The exponential of `a`, as an exact rational near it. -/
def exp (bits : Nat) (a : Int) : Rat :=
  let k := a / (log2 bits : Int)
  let r := (a - k * log2 bits).toNat
  (powerSeries bits r bits (one bits) 1 : Rat) * (2 : Rat) ^ (k - bits)

end Calculator.FixedPoint
