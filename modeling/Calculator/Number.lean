import Calculator.Binary64.Places
import Calculator.Binary64.Order
import Calculator.Decimal.Shortest

/-!
# Results

A result that is whole and within the range of 64-bit integers is an integer, and every other one
stays a float. An integer has no negative zero and no exponent, and a float keeps its value.
-/

namespace Calculator

/-- The result of an expression. -/
inductive Number where
  | integer (value : Int)
  | float (value : Binary64)
deriving DecidableEq, Repr

namespace Number

/-- The least integer of 64 bits. -/
def least : Int := -0x8000000000000000

/-- The largest integer of 64 bits. -/
def largest : Int := 0x7FFFFFFFFFFFFFFF

/-- The value of the least integer. -/
def leastValue : Binary64 := .nearest false (-0x8000000000000000)

/-- The first value past the largest integer, which is no value itself. -/
def pastLargest : Binary64 := .nearest false 0x8000000000000000

/-- The number that stands for a value: an integer if the value has no fraction and is in the range. -/
def ofBinary64 (x : Binary64) : Number :=
  if x.isFinite ∧ x.fract.isZero ∧ leastValue ≤ x ∧ x < pastLargest then
    integer (x.toIntWithin least largest)
  else float x

/-- The value nearest to the number. -/
def toBinary64 : Number → Binary64
  | integer n => .ofInt n
  | float x => x

/-- The number is an integer. -/
def isInteger : Number → Bool
  | integer _ => true
  | float _ => false

/-- The text of a number. -/
def text : Number → List Char
  | integer n => (if n < 0 then ['-'] else []) ++ Nat.toDigits 10 n.natAbs
  | float x => x.text

instance instToStringNumber : ToString Number := ⟨fun n => String.ofList n.text⟩

end Number

end Calculator
