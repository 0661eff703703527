import Calculator.Binary64.Arithmetic
import Calculator.Decimal.Basic

/-!
# Whole parts and decimal places

A value is cut to the whole number towards zero. The cut of a binary64 value is a binary64 value, and
what it leaves is the fraction. The whole part is also taken as an integer of a given range, whose ends
stand for everything outside of it.

To be rounded to decimal places, a value is scaled by a power of ten, rounded to a whole number, and
scaled back. Few decimals are binary64 values, so that the scaled value of a typed half such as `1.005`
lies a little beside the half. It is cut to fifteen significant digits first, which brings it back, and
halves then go away from zero as they read. A value too large to be scaled is left as it is.
-/

namespace Calculator.Binary64

/-- The largest whole number that does not exceed a magnitude, with the sign of the value. -/
def trunc : Binary64 → Binary64
  | finite s m => roundMagnitude s m.toRat.floor.toNat
  | x => x

/-- What a value exceeds its whole part by. -/
def fract (x : Binary64) : Binary64 :=
  x.sub x.trunc

/-- The whole part as an integer between `low` and `high`, and zero for nan. -/
def toIntWithin (low high : Int) : Binary64 → Int
  | nan => 0
  | infinite s => if s then low else high
  | finite s m =>
    let whole := m.toRat.floor
    max low (min high (if s then -whole else whole))

/-- The count of significant digits that a scaled value keeps. -/
def keptDigits : Nat := 15

/-- The value nearest to the decimal of `keptDigits` digits nearest to the given one. -/
def keepDigits : Binary64 → Binary64
  | finite s m => roundMagnitude s (Decimal.significant keptDigits m.toRat).toRat
  | x => x

/-- The power of ten, as a product of rounded squares. -/
def powerOfTen (n : Nat) : Binary64 :=
  mulPow (ofInt 1) (ofInt 10) n

/-- The value rounded to a number of decimal places. -/
def roundToPlaces (places : Nat) (x : Binary64) : Binary64 :=
  let factor := powerOfTen places
  let scaled := x.mul factor
  if factor.isFinite && scaled.isFinite then scaled.keepDigits.roundWhole.div factor else x

end Calculator.Binary64
