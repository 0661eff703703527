import Calculator.Proofs.Binary64.Spacing
import Calculator.Proofs.Decimal.Significant

/-!
# Decimals that are read back

The decimals of a count of digits lie further apart than the binary64 values around them, as long as
the count is at most fifteen. Such a decimal is therefore not lost when it is rounded to a binary64
value: cutting the value to the same count of digits gives the decimal back.
-/

namespace Calculator.Decimal

variable {count : Nat} {d : Decimal} {s : Rat}

/-- The largest count of digits that survives the rounding. -/
theorem pow_le_of_le_fifteen (few : count ≤ 15) : (10 : Rat) ^ count ≤ 10 ^ 15 :=
  pow_le_pow_right₀ (by norm_num) few

/-- A decimal is a whole number of units of the last place that is kept of a value close to it. -/
theorem exists_units (few : count ≤ 15) (digits : d.digits < 10 ^ count) (pos : 0 < s)
    (near : s ≤ d.toRat + d.toRat / 2 ^ 51) :
    ∃ units : Nat, d.toRat = units * (10 : Rat) ^ (Int.log 10 s - count + 1) := by
  rcases le_or_gt (Int.log 10 s - count + 1) d.exponent with coarse | fine
  · refine ⟨d.digits * 10 ^ (d.exponent - (Int.log 10 s - count + 1)).toNat, ?_⟩
    have whole : (((d.exponent - (Int.log 10 s - count + 1)).toNat : Nat) : Int) =
        d.exponent - (Int.log 10 s - count + 1) := by omega
    push_cast
    rw [mul_assoc, ← zpow_natCast, whole, ← zpow_add₀ (by norm_num), sub_add_cancel, toRat]
  · -- The decimal would lie below the decade of the value, by more than the distance of the two.
    exfalso
    have unit : (0 : Rat) < (10 : Rat) ^ (Int.log 10 s - count) := zpow_pos (by norm_num) _
    have decade : (10 : Rat) ^ count * (10 : Rat) ^ (Int.log 10 s - count) ≤ s := by
      have start := decade_end count (Int.log 10 s - count)
      rw [sub_add_cancel] at start
      push_cast at start
      rw [start]
      exact (zpow_le_iff 10 pos).2 (le_refl _)
    have below : d.toRat ≤ ((10 : Rat) ^ count - 1) * (10 : Rat) ^ (Int.log 10 s - count) := by
      have most : (d.digits : Rat) ≤ (10 : Rat) ^ count - 1 := by
        have cast : ((d.digits + 1 : Nat) : Rat) ≤ ((10 ^ count : Nat) : Rat) :=
          Nat.cast_le.2 digits
        push_cast at cast
        linarith
      have place : (10 : Rat) ^ d.exponent ≤ (10 : Rat) ^ (Int.log 10 s - count) :=
        zpow_le_zpow_right₀ (by norm_num) (by omega)
      calc d.toRat ≤ d.digits * (10 : Rat) ^ (Int.log 10 s - count) :=
            mul_le_mul_of_nonneg_left place (Nat.cast_nonneg _)
        _ ≤ _ := mul_le_mul_of_nonneg_right most unit.le
    have bound := mul_le_mul_of_nonneg_right (pow_le_of_le_fifteen few) unit.le
    rw [sub_mul, one_mul] at below
    linarith

/-- A decimal of at most fifteen digits is the cut of every number that is off by no more than four
roundings are. -/
theorem toRat_significant_of_near (few : count ≤ 15) (digits : d.digits < 10 ^ count)
    (pos : 0 < d.toRat) (near : |s - d.toRat| ≤ d.toRat / 2 ^ 51) :
    (significant count s).toRat = d.toRat := by
  have error := abs_le.1 near
  have spos : 0 < s := by linarith
  obtain ⟨units, whole⟩ := exists_units few digits spos (by linarith)
  have unit : (0 : Rat) < (10 : Rat) ^ (Int.log 10 s - count + 1) := zpow_pos (by norm_num) _
  have top : s < (10 : Rat) ^ count * (10 : Rat) ^ (Int.log 10 s - count + 1) := by
    exact_mod_cast lt_decade_end spos
  rw [toRat_significant spos]
  generalize (10 : Rat) ^ (Int.log 10 s - count + 1) = u at whole unit top ⊢
  have most : (units : Rat) < 2 ^ 50 := by
    have bound := mul_le_mul_of_nonneg_right (pow_le_of_le_fifteen few) unit.le
    refine lt_of_mul_lt_mul_right ?_ unit.le
    rw [← whole]
    linarith
  have close : |s / u - units| < 1 / 2 := by
    have scaled : s / u - units = (s - d.toRat) / u := by
      rw [whole, sub_div, mul_div_cancel_right₀ _ unit.ne']
    rw [scaled, abs_div, abs_of_pos unit, div_lt_iff₀ unit]
    refine near.trans_lt ?_
    rw [whole, mul_div_right_comm]
    exact mul_lt_mul_of_pos_right (by linarith) unit
  rw [nearestNat_eq_of_abs_sub_lt .toEven (div_pos spos unit).le close, whole]

/-- A decimal of at most fifteen digits is the cut of the value nearest to it. -/
theorem toRat_significant_nearest (few : count ≤ 15) (digits : d.digits < 10 ^ count)
    (normal : (2 : Rat) ^ (-1022 : Int) ≤ d.toRat) :
    (significant count (positionValue (nearestIndex d.toRat))).toRat = d.toRat := by
  have pos : 0 < d.toRat := lt_of_lt_of_le (zpow_pos (by norm_num) _) normal
  refine toRat_significant_of_near few digits pos ?_
  have error := abs_positionValue_nearestIndex_sub_le_div normal
  linarith

/-- The first number with one digit more is a decimal of one digit. -/
theorem exists_digits_lt_of_le (positive : 0 < count) (digits : d.digits ≤ 10 ^ count) :
    ∃ e : Decimal, e.digits < 10 ^ count ∧ e.toRat = d.toRat := by
  rcases Nat.lt_or_eq_of_le digits with inside | full
  · exact ⟨d, inside, rfl⟩
  · refine ⟨⟨1, d.exponent + count⟩, Nat.one_lt_pow positive.ne' (by decide), ?_⟩
    rw [toRat, toRat, full, decade_end, Nat.cast_one, one_mul]

/-- The cut to a count of digits is the value of a decimal with no more digits, also where it
reaches the end of its decade. -/
theorem exists_digits_lt (positive : 0 < count) (q : Rat) :
    ∃ e : Decimal, e.digits < 10 ^ count ∧ e.toRat = (significant count q).toRat := by
  refine exists_digits_lt_of_le positive ?_
  unfold significant
  split_ifs with nonpos
  · exact Nat.zero_le _
  · have pos := not_le.1 nonpos
    have unit : (0 : Rat) < (10 : Rat) ^ (Int.log 10 q - count + 1) := zpow_pos (by norm_num) _
    dsimp only
    rw [decade_eq_log pos]
    exact nearestNat_le_of_le .toEven ((div_le_iff₀ unit).2 (lt_decade_end pos).le)

end Calculator.Decimal
