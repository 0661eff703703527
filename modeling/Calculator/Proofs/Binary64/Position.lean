import Mathlib.Order.Monotone.Basic
import Mathlib.Tactic.Ring
import Calculator.Binary64.Nearest
import Calculator.Proofs.Numeric.Exponent
import Calculator.Proofs.Numeric.Nearest

/-!
# Positions and their values

The value at a position is a whole factor at the spacing of the binade. The values increase, also
past the last finite one, each by the spacing of its binade.
-/

namespace Calculator

/-- The binade of a position, counted from the one in which all subnormal positions lie. -/
def positionBinade (index : Nat) : Nat := index / 0x10000000000000 - 1

/-- The whole factor of the value at a position. -/
def positionCoefficient (index : Nat) : Nat := index - positionBinade index * 0x10000000000000

/-- The value at a position. -/
def positionValue (index : Nat) : Rat :=
  positionCoefficient index * (2 : Rat) ^ ((positionBinade index : Int) - 1074)

theorem Magnitude.toRat_eq (m : Magnitude) : m.toRat = positionValue m.index := by
  rw [toRat, positionValue, coefficient, exponent, positionCoefficient, positionBinade]
  split_ifs with subnormal
  · have first : m.index / 0x10000000000000 - 1 = 0 := by omega
    simp [first]
  · have factor : m.index - (m.index / 0x10000000000000 - 1) * 0x10000000000000 =
        0x10000000000000 + m.index % 0x10000000000000 := by omega
    have power : ((m.index / 0x10000000000000 - 1 : Nat) : Int) - 1074 =
        (m.index / 0x10000000000000 : Nat) - 1075 := by omega
    rw [factor, power]

theorem positionCoefficient_lt (index : Nat) : positionCoefficient index < 0x20000000000000 := by
  rw [positionCoefficient, positionBinade]
  omega

theorem le_positionCoefficient (index : Nat) (normal : positionBinade index ≠ 0) :
    0x10000000000000 ≤ positionCoefficient index := by
  rw [positionBinade] at normal
  rw [positionCoefficient, positionBinade]
  omega

theorem positionCoefficient_add (index : Nat) :
    positionCoefficient index + positionBinade index * 0x10000000000000 = index := by
  rw [positionCoefficient, positionBinade]
  omega

/-- From a position to the next its value grows by the spacing of its binade. The last position of a
binade is followed by the first of the next, which has half the factor at twice the spacing. -/
theorem positionValue_succ (index : Nat) :
    positionValue (index + 1) =
      positionValue index + (2 : Rat) ^ ((positionBinade index : Int) - 1074) := by
  have whole := positionCoefficient_add index
  have whole' := positionCoefficient_add (index + 1)
  have below := positionCoefficient_lt index
  have below' := positionCoefficient_lt (index + 1)
  have steps : positionBinade (index + 1) = positionBinade index ∨
      positionBinade (index + 1) = positionBinade index + 1 ∧
        positionCoefficient index = 0x1FFFFFFFFFFFFF := by
    have normal := le_positionCoefficient index
    have normal' := le_positionCoefficient (index + 1)
    omega
  rcases steps with same | ⟨next, last⟩
  · have factor : positionCoefficient (index + 1) = positionCoefficient index + 1 := by
      rw [same] at whole'
      omega
    rw [positionValue, positionValue, same, factor]
    push_cast
    ring
  · have factor : positionCoefficient (index + 1) = 0x10000000000000 := by
      rw [next] at whole'
      omega
    have power : (2 : Rat) ^ (((positionBinade index + 1 : Nat) : Int) - 1074) =
        2 * (2 : Rat) ^ ((positionBinade index : Int) - 1074) := by
      rw [mul_comm, ← zpow_add_one₀ (by decide)]
      congr 1
      omega
    rw [positionValue, positionValue, next, factor, last, power]
    push_cast
    ring

theorem positionValue_strictMono : StrictMono positionValue := by
  refine strictMono_nat_of_lt_succ fun index => ?_
  rw [positionValue_succ]
  have spacing : (0 : Rat) < (2 : Rat) ^ ((positionBinade index : Int) - 1074) :=
    zpow_pos (by decide) _
  linarith

theorem positionValue_zero : positionValue 0 = 0 := by
  simp [positionValue, positionCoefficient]

theorem positionValue_pos {index : Nat} (pos : 0 < index) : 0 < positionValue index := by
  rw [← positionValue_zero]
  exact positionValue_strictMono pos

end Calculator
