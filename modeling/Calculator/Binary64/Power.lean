import Calculator.Numeric.FixedPoint
import Calculator.Binary64.Arithmetic

/-!
# Powers of binary64 values

A power of two finite numbers is the exact real power rounded once. A power that is rational by
its form is computed exactly: an exponent that is a small whole number, a base that is a power of
two, and a fractional exponent whose square roots come out even. Any other power is no binary64
value and no middle between two of them, so that an enclosure that is narrow enough lies between
two neighbouring middles and both of its ends round to the power's own value.
-/

namespace Calculator

/-- The square root of a positive rational, if it is rational. -/
def exactSqrt? (q : Rat) : Option Rat :=
  let num := q.num.toNat.sqrt
  let den := q.den.sqrt
  if num * num = q.num.toNat ∧ den * den = q.den then some (mkRat num den) else none

/-- The largest whole exponent at which any base is raised exactly. -/
def exactExponentLimit : Nat := 64

/-- The power `x ^ y` of a positive base where it is rational and short: a fractional exponent is
doubled as long as the base has a rational square root, `roots` times at most. -/
def exactPower? : (roots : Nat) → (x y : Rat) → Option Rat
  | roots, x, y =>
    if y.den = 1 then
      if x = (2 : Rat) ^ binade x then some ((2 : Rat) ^ (binade x * y.num))
      else if y.num.natAbs ≤ exactExponentLimit then some (x ^ y.num)
      else none
    else
      match roots with
      | 0 => none
      | roots + 1 => (exactSqrt? x).bind fun root => exactPower? roots root (y * 2)

/-- An approximation of `x ^ y` for a positive base. -/
def approximatePower (bits : Nat) (x y : Rat) : Rat :=
  FixedPoint.exp bits (y * FixedPoint.log bits x).floor

/-- The position nearest to `x ^ y`, if both ends of the enclosure around the approximation with
this many bits are nearest to one position. The logarithm is off by less than `2 ^ 24` units of the
last place, and where the power is neither zero nor infinite by its size, `y` is below `2 ^ 64`, so
that a relative width of `2 ^ 100` units leaves room for the exponential. -/
def enclosedIndex? (x y : Rat) (bits : Nat) : Option Nat :=
  let middle := approximatePower bits x y
  let width := middle * (2 : Rat) ^ (100 - bits : Int)
  let index := nearestIndex (middle - width)
  if index = nearestIndex (middle + width) then some index else none

/-- The counts of bits tried for an enclosure. -/
def enclosureBits : List Nat := [192, 384, 768, 1536, 3072]

/-- The position nearest to `x ^ y` for a positive base, zero far below the smallest position and
past the last one far above it. -/
def powerIndex (x y : Rat) : Nat :=
  let logarithm := y * FixedPoint.log 192 x / FixedPoint.one 192
  if logarithm < -800 then 0
  else if 800 < logarithm then 0x7FF0000000000000
  else
    match exactPower? 12 x y with
    | some q => nearestIndex q
    | none =>
      (enclosureBits.findSome? (enclosedIndex? x y)).getD
        (nearestIndex (approximatePower 3072 x y))

namespace Binary64

/-- The power. An exponent of zero and a base of one give one whatever the other value is. A
negative base needs a whole exponent, and the power is negative if that is odd. -/
def pow (x y : Binary64) : Binary64 :=
  if y.isZero ∨ x = ofInt 1 then ofInt 1
  else
    match x, y with
    | nan, _ | _, nan => nan
    | infinite _, infinite t => if t then zero else infinite false
    | finite _ m, infinite t =>
      if m.toRat = 1 then ofInt 1 else if decide (m.toRat < 1) == t then infinite false else zero
    | infinite s, finite t n =>
      let negative := s && n.isOdd
      if t then finite negative .zero else infinite negative
    | finite s m, finite t n =>
      let negative := s && n.isOdd
      if m.index = 0 then if t then infinite negative else finite negative .zero
      else if s && n.toRat.den != 1 then nan
      else ofIndex negative (powerIndex m.toRat (signed t n.toRat))

end Binary64

end Calculator
