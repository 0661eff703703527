import Calculator.Decimal.Basic
import Calculator.Proofs.Numeric.Exponent
import Calculator.Proofs.Numeric.Nearest

/-!
# Cutting to significant digits

The cut of a number to a count of significant digits stays in its decade, of which it may reach the
end, and a larger number has no smaller cut. A natural number has a natural cut.
-/

namespace Calculator.Decimal

variable {count : Nat}

theorem toRat_nonneg (d : Decimal) : 0 ≤ d.toRat :=
  mul_nonneg (Nat.cast_nonneg _) (zpow_pos (by decide) _).le

/-- A decimal without a fraction is natural. -/
theorem exists_natCast {d : Decimal} (whole : 0 ≤ d.exponent) : ∃ k : Nat, d.toRat = k := by
  obtain ⟨k, power⟩ := Int.eq_ofNat_of_zero_le whole
  refine ⟨d.digits * 10 ^ k, ?_⟩
  rw [toRat, power, zpow_natCast]
  push_cast
  rfl

theorem toRat_shift (d : Decimal) (places : Nat) :
    (mk d.digits (d.exponent + places)).toRat = d.toRat * 10 ^ places := by
  rw [toRat, toRat, zpow_add₀ (by decide), zpow_natCast, mul_assoc]

theorem toRat_significant_of_nonpos {q : Rat} (nonpos : q ≤ 0) : (significant count q).toRat = 0 := by
  rw [significant, if_pos nonpos, toRat, Nat.cast_zero, zero_mul]

theorem toRat_significant {q : Rat} (pos : 0 < q) :
    (significant count q).toRat =
      nearestNat .toEven (q / (10 : Rat) ^ (Int.log 10 q - count + 1)) *
        (10 : Rat) ^ (Int.log 10 q - count + 1) := by
  rw [significant, if_neg (not_le.2 pos), decade_eq_log pos]
  rfl

/-- The cut moves a number by half of the last kept place at most. -/
theorem abs_toRat_significant_sub_le {q : Rat} (pos : 0 < q) :
    |(significant count q).toRat - q| ≤ (10 : Rat) ^ (Int.log 10 q - count + 1) / 2 := by
  rw [toRat_significant pos]
  exact abs_nearestNat_mul_sub_le .toEven pos.le (zpow_pos (by decide) _)

/-- Units of the last kept place at the end of a decade. -/
theorem decade_end (n : Nat) (e : Int) :
    ((10 ^ n : Nat) : Rat) * (10 : Rat) ^ e = (10 : Rat) ^ (e + n) := by
  rw [zpow_add₀ (by decide), zpow_natCast, mul_comm]
  push_cast
  rfl

/-- A number in units of its last kept place stays below the end of its decade. -/
theorem lt_decade_end {q : Rat} (pos : 0 < q) :
    q < ((10 ^ count : Nat) : Rat) * (10 : Rat) ^ (Int.log 10 q - count + 1) := by
  rw [decade_end, lt_zpow_iff 10 pos]
  omega

/-- The cut of a number stays between the ends of its decade. -/
theorem toRat_significant_bounds (positive : 0 < count) {q : Rat} (pos : 0 < q) :
    (10 : Rat) ^ Int.log 10 q ≤ (significant count q).toRat ∧
      (significant count q).toRat ≤ (10 : Rat) ^ (Int.log 10 q + 1) := by
  have unit : (0 : Rat) < (10 : Rat) ^ (Int.log 10 q - count + 1) := zpow_pos (by decide) _
  have first := decade_end (count - 1) (Int.log 10 q - count + 1)
  have last := decade_end count (Int.log 10 q - count + 1)
  rw [show Int.log 10 q - count + 1 + ((count - 1 : Nat) : Int) = Int.log 10 q by omega] at first
  rw [show Int.log 10 q - count + 1 + (count : Int) = Int.log 10 q + 1 by omega] at last
  rw [toRat_significant pos, ← first, ← last]
  constructor
  · refine mul_le_mul_of_nonneg_right (Nat.cast_le.2 (le_nearestNat_of_le .toEven ?_)) unit.le
    rw [le_div_iff₀ unit, first]
    exact (zpow_le_iff 10 pos).2 (le_refl _)
  · refine mul_le_mul_of_nonneg_right (Nat.cast_le.2 (nearestNat_le_of_le .toEven ?_)) unit.le
    exact (div_le_iff₀ unit).2 (lt_decade_end pos).le

/-- A larger number has no smaller cut. -/
theorem toRat_significant_mono (positive : 0 < count) {q r : Rat} (le : q ≤ r) :
    (significant count q).toRat ≤ (significant count r).toRat := by
  by_cases pos : 0 < q
  · have pos' : 0 < r := lt_of_lt_of_le pos le
    have logs : Int.log 10 q ≤ Int.log 10 r := Int.log_mono_right pos le
    rcases lt_or_eq_of_le logs with less | equal
    · calc (significant count q).toRat
          ≤ (10 : Rat) ^ (Int.log 10 q + 1) := (toRat_significant_bounds positive pos).2
        _ ≤ (10 : Rat) ^ Int.log 10 r := zpow_le_zpow_right₀ (by decide) less
        _ ≤ (significant count r).toRat := (toRat_significant_bounds positive pos').1
    · have unit : (0 : Rat) < (10 : Rat) ^ (Int.log 10 r - count + 1) := zpow_pos (by decide) _
      rw [toRat_significant pos, toRat_significant pos', equal]
      refine mul_le_mul_of_nonneg_right (Nat.cast_le.2 (nearestNat_mono .toEven ?_)) unit.le
      exact div_le_div_of_nonneg_right le unit.le
  · rw [toRat_significant_of_nonpos (not_lt.1 pos)]
    exact toRat_nonneg _

/-- The cut of a natural number is natural. -/
theorem exists_toRat_significant (count n : Nat) :
    ∃ cut : Nat, (significant count n).toRat = cut := by
  rcases Nat.eq_zero_or_pos n with rfl | nonzero
  · exact ⟨0, toRat_significant_of_nonpos (le_refl _)⟩
  · have pos : (0 : Rat) < n := Nat.cast_pos.2 nonzero
    have grid := exists_nearestNat_mul_zpow .toEven (b := 10) (by decide)
      (Int.log 10 (n : Rat) - count + 1) n
    rw [Nat.cast_ofNat] at grid
    obtain ⟨cut, value⟩ := grid
    exact ⟨cut, by rw [toRat_significant pos, value]⟩

/-- The cut of a natural number with one digit too many is a multiple of ten. -/
theorem toRat_significant_of_extra_digit {n : Nat} (long : 10 ^ count ≤ n)
    (short : n < 10 ^ (count + 1)) :
    (significant count n).toRat = ((nearestNat .toEven ((n : Rat) / 10) * 10 : Nat) : Rat) := by
  have pos : (0 : Rat) < n := by exact_mod_cast (Nat.pow_pos (by decide)).trans_le long
  have lower : (10 : Rat) ^ (count : Int) ≤ n := by
    rw [zpow_natCast]
    exact_mod_cast long
  have upper : (n : Rat) < (10 : Rat) ^ ((count + 1 : Nat) : Int) := by
    rw [zpow_natCast]
    exact_mod_cast short
  rw [zpow_le_iff 10 pos] at lower
  rw [lt_zpow_iff 10 pos] at upper
  have place : Int.log 10 (n : Rat) - count + 1 = 1 := by omega
  rw [toRat_significant pos, place, zpow_one]
  push_cast
  rfl

end Calculator.Decimal
