import Calculator.Proofs.Binary64.Spacing

/-!
# Roundings in a row

A rounding to a full coefficient is off by one part in `2 ^ 53` at most, and roundings in a row multiply
up. Exact products and quotients between them do not add to the relative error, so that only the
roundings have to be counted.
-/

namespace Calculator

/-- The relative error that a number of roundings in a row can reach. -/
def roundingError (n : Nat) : Rat := (1 + 1 / 2 ^ 53) ^ n - 1

theorem roundingError_succ (n : Nat) :
    roundingError (n + 1) = roundingError n + (1 + roundingError n) / 2 ^ 53 := by
  unfold roundingError
  ring

/-- The number `r` is no further from `q` than `n` roundings can lead. -/
def Within (n : Nat) (q r : Rat) : Prop := |r - q| ≤ q * roundingError n

namespace Within

variable {n : Nat} {q r factor : Rat}

theorem refl (q : Rat) : Within 0 q q := by
  simp [Within, roundingError]

theorem mul (near : Within n q r) (nonneg : 0 ≤ factor) : Within n (q * factor) (r * factor) := by
  have scaled := mul_le_mul_of_nonneg_right near nonneg
  rw [Within, ← sub_mul, abs_mul, abs_of_nonneg nonneg]
  linarith

/-- One rounding more, of a number that is not subnormal. -/
theorem round (near : Within n q r) (normal : (2 : Rat) ^ (-1022 : Int) ≤ r) :
    Within (n + 1) q (positionValue (nearestIndex r)) := by
  have last := abs_le.1 (abs_positionValue_nearestIndex_sub_le_div normal)
  have earlier := abs_le.1 near
  rw [Within, roundingError_succ, abs_le]
  constructor <;> linarith

/-- Three roundings are off by less than four parts in `2 ^ 53`. -/
theorem abs_sub_le (near : Within n q r) (few : n ≤ 3) (nonneg : 0 ≤ q) : |r - q| ≤ q / 2 ^ 51 := by
  have grows : roundingError n ≤ roundingError 3 :=
    sub_le_sub_right (pow_le_pow_right₀ (by norm_num) few) 1
  have last : roundingError 3 ≤ 1 / 2 ^ 51 := by
    unfold roundingError
    norm_num
  calc |r - q| ≤ q * roundingError n := near
    _ ≤ q * (1 / 2 ^ 51) := mul_le_mul_of_nonneg_left (grows.trans last) nonneg
    _ = q / 2 ^ 51 := mul_one_div q _

end Within

end Calculator
