import Calculator.Numeric.Nearest
import Calculator.Binary64.Basic

/-!
# The binary64 value nearest to a rational

A positive rational is divided by the spacing of the magnitudes around it, and the quotient is
rounded to the nearest whole number, a tie going to the even one. The quotient and the spacing
together give the position of the nearest magnitude. A position past the last finite one is an
infinity: the sequence is continued by one step, so that everything from the middle of that step
on is infinite.
-/

namespace Calculator

/-- The exponent of the spacing of magnitudes around a positive `q`. -/
def spacingExponent (q : Rat) : Int :=
  max (binade q - 52) (-1074)

/-- The position of the magnitude nearest to `q`, counted on past the last finite one. -/
def nearestIndex (q : Rat) : Nat :=
  if q ≤ 0 then 0
  else
    let e := spacingExponent q
    nearestNat .toEven (q / (2 : Rat) ^ e) + (e + 1074).toNat * 0x10000000000000

namespace Binary64

/-- The number at a position with a sign, infinite past the last finite position. -/
def ofIndex (negative : Bool) (index : Nat) : Binary64 :=
  if h : index < 0x7FF0000000000000 then finite negative ⟨index, h⟩ else infinite negative

/-- The value nearest to a magnitude, with the given sign. -/
def roundMagnitude (negative : Bool) (q : Rat) : Binary64 :=
  ofIndex negative (nearestIndex q)

/-- The value nearest to `q`; an exact zero takes the sign `zeroNegative`. -/
def nearest (zeroNegative : Bool) (q : Rat) : Binary64 :=
  if q = 0 then finite zeroNegative .zero
  else if q < 0 then roundMagnitude true (-q)
  else roundMagnitude false q

end Binary64

end Calculator
