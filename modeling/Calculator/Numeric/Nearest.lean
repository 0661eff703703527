/-!
# Binades, decades and the nearest whole number

The binade of a positive rational is the exponent of the largest power of two that does not
exceed it, its decade the same for ten. A count of digits of the numerator and the denominator
gives the exponent up to one, and one comparison settles it.

A nonnegative rational is rounded to the nearest natural number. Only a value exactly half-way
between two neighbours needs a rule of its own, and the rule is a parameter: the even neighbour,
or the upper one. Every rounding of the library is this one on a scaled value.
-/

namespace Calculator

/-- The larger of `e` and `e - 1` whose power of `b` does not exceed `q`. -/
def settle (b : Rat) (e : Int) (q : Rat) : Int :=
  if b ^ e ≤ q then e else e - 1

/-- The exponent of the largest power of two that does not exceed `q`. -/
def binade (q : Rat) : Int :=
  settle 2 ((q.num.toNat.log2 : Int) - q.den.log2) q

/-- The exponent of the largest power of ten that does not exceed `n`, and zero for zero. -/
def log10 (n : Nat) : Nat :=
  if n < 10 then 0 else log10 (n / 10) + 1

/-- The exponent of the largest power of ten that does not exceed `q`. -/
def decade (q : Rat) : Int :=
  settle 10 ((log10 q.num.toNat : Int) - log10 q.den) q

/-- Where a value exactly half-way between two whole numbers goes. -/
inductive Tie where
  | toEven
  | upward
deriving DecidableEq, Repr

/-- The neighbour of `below + 1/2` that the rule chooses. -/
def Tie.resolve : Tie → Nat → Nat
  | .toEven, below => below + below % 2
  | .upward, below => below + 1

/-- The natural number nearest to `q`, and zero for a negative `q`. -/
def nearestNat (tie : Tie) (q : Rat) : Nat :=
  let below := q.floor.toNat
  let rest := q - below
  if rest < 1 / 2 then below
  else if 1 / 2 < rest then below + 1
  else tie.resolve below

end Calculator
