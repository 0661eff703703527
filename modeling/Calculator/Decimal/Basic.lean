import Calculator.Numeric.Nearest

/-!
# Decimal numbers

A decimal is a whole number times a power of ten. It is written positionally, whatever its
exponent, with no zeros after the last nonzero place of its fraction, and it is read from digits
with at most one point among them, which follows a digit.
-/

namespace Calculator

/-- The number `digits * 10 ^ exponent`. -/
structure Decimal where
  digits : Nat
  exponent : Int
deriving DecidableEq, Repr

namespace Decimal

/-- The exact value. -/
def toRat (d : Decimal) : Rat :=
  d.digits * (10 : Rat) ^ d.exponent

/-- The digits of a fraction of the given number of places, without zeros at the end. -/
def fractionText (places digits : Nat) : List Char :=
  (((Nat.toDigits 10 digits).leftpad places '0').reverse.dropWhile (· == '0')).reverse

/-- The positional text. -/
def text (d : Decimal) : List Char :=
  let places := (-d.exponent).toNat
  let whole := d.digits * Nat.pow 10 d.exponent.toNat
  let fraction := fractionText places (whole % Nat.pow 10 places)
  Nat.toDigits 10 (whole / Nat.pow 10 places) ++
    if fraction.isEmpty then [] else '.' :: fraction

/-- Reads digits, with at most one point, which follows a digit. -/
def ofText? (text : List Char) : Option Decimal :=
  let whole := text.takeWhile Char.isDigit
  if whole.isEmpty then none
  else
    match text.dropWhile Char.isDigit with
    | [] => some ⟨Nat.ofDigitChars 10 whole 0, 0⟩
    | '.' :: fraction =>
      if fraction.all Char.isDigit then
        some ⟨Nat.ofDigitChars 10 (whole ++ fraction) 0, -fraction.length⟩
      else none
    | _ => none

/-- The decimal of `count` significant digits nearest to `q`, a tie going to the even one. -/
def significant (count : Nat) (q : Rat) : Decimal :=
  if q ≤ 0 then ⟨0, 0⟩
  else
    let exponent := decade q - count + 1
    ⟨nearestNat .toEven (q / (10 : Rat) ^ exponent), exponent⟩

end Decimal

end Calculator
