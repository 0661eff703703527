/-!
# Binary64 values

The finite magnitudes of the binary64 format form one increasing sequence, and a magnitude is its
position there. Below `2 ^ 52` the positions are the multiples of `2 ^ (-1074)`; from there each
run of `2 ^ 52` positions is one binade, whose spacing is twice that of the binade before. The order
of positions is the order of values, and the successor of a magnitude is the next position.

A value is a sign with a magnitude, an infinity, or the one value that is not a number. In its
pattern of bits the top one is the sign, and the remaining 63 bits of a finite number are its position.
The first pattern past the last position is the infinity, and every larger one is nan.
-/

namespace Calculator

/-- A finite magnitude, by its position in the increasing sequence of all of them. -/
structure Magnitude where
  index : Nat
  index_lt : index < 0x7FF0000000000000
deriving DecidableEq, Repr

namespace Magnitude

/-- The smallest magnitude. -/
def zero : Magnitude := ⟨0, by decide⟩

/-- The whole factor of the magnitude, below `2 ^ 53`. -/
def coefficient (m : Magnitude) : Nat :=
  if m.index < 0x10000000000000 then m.index
  else 0x10000000000000 + m.index % 0x10000000000000

/-- The exponent of the power of two that scales the coefficient. -/
def exponent (m : Magnitude) : Int :=
  if m.index < 0x10000000000000 then -1074 else (m.index / 0x10000000000000 : Nat) - 1075

/-- The exact value. -/
def toRat (m : Magnitude) : Rat :=
  m.coefficient * (2 : Rat) ^ m.exponent

/-- An odd whole number. -/
def isOdd (m : Magnitude) : Bool :=
  m.toRat.den == 1 && m.toRat.num % 2 == 1

end Magnitude

/-- A binary64 value; every value that is not a number is the same one. -/
inductive Binary64 where
  | nan
  | infinite (negative : Bool)
  | finite (negative : Bool) (magnitude : Magnitude)
deriving DecidableEq, Repr

namespace Binary64

/-- Zero with the sign of positive numbers. -/
def zero : Binary64 := finite false .zero

/-- Neither infinite nor nan. -/
def isFinite : Binary64 → Bool
  | finite .. => true
  | _ => false

/-- A zero of either sign. -/
def isZero : Binary64 → Bool
  | finite _ m => m.index == 0
  | _ => false

/-- A sign applied to an exact magnitude. -/
def signed (negative : Bool) (q : Rat) : Rat :=
  if negative then -q else q

/-- The exact value of a finite number. -/
def toRat? : Binary64 → Option Rat
  | finite negative m => some (signed negative m.toRat)
  | _ => none

/-- The value of a pattern of 64 bits. -/
def ofBits (bits : UInt64) : Binary64 :=
  let negative := bits.toNat / 0x8000000000000000 = 1
  let index := bits.toNat % 0x8000000000000000
  if h : index < 0x7FF0000000000000 then finite negative ⟨index, h⟩
  else if index = 0x7FF0000000000000 then infinite negative
  else nan

/-- The pattern of a value; nan has the one with only the first bit of the fraction set. -/
def toBits : Binary64 → UInt64
  | nan => 0x7FF8000000000000
  | infinite negative => .ofNat ((if negative then 0x8000000000000000 else 0) + 0x7FF0000000000000)
  | finite negative m => .ofNat ((if negative then 0x8000000000000000 else 0) + m.index)

/-- A value is read back from its pattern. -/
theorem ofBits_toBits (x : Binary64) : ofBits x.toBits = x := by
  cases x with
  | nan => rfl
  | infinite negative => cases negative <;> rfl
  | finite negative m =>
    have hm := m.index_lt
    cases negative
    · have word : m.index % 0x10000000000000000 = m.index := by omega
      have sign : m.index / 0x8000000000000000 = 0 := by omega
      have rest : m.index % 0x8000000000000000 = m.index := by omega
      simp [toBits, ofBits, word, sign, rest, hm]
    · have word : (0x8000000000000000 + m.index) % 0x10000000000000000 =
          0x8000000000000000 + m.index := by omega
      have sign : (0x8000000000000000 + m.index) / 0x8000000000000000 = 1 := by omega
      have rest : (0x8000000000000000 + m.index) % 0x8000000000000000 = m.index := by omega
      simp [toBits, ofBits, word, sign, rest, hm]

end Binary64

end Calculator
