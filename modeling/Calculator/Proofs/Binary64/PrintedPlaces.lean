import Calculator.Proofs.Binary64.Settled
import Calculator.Proofs.Decimal.Shortest

/-!
# Decimals of rounded values

A rounded value is a whole number of few digits divided by the power of ten. Up to `10 ^ 16` this whole
number is a decimal of at most fifteen digits, and so is the quotient, which is then the decimal that
stands for the value. From there on the seventeenth digit of the value is no finer than the rounded place,
and that holds for the values that are too large to be scaled as well.
-/

namespace Calculator.Binary64

open Magnitude

variable {places k : Nat} {s : Bool} {m : Magnitude} {d : Decimal}

/-- A multiple of ten is even, and below `2 ^ 54` the even numbers are values. -/
theorem positionValue_nearestIndex_of_exponent_pos (exponent : 0 < d.exponent)
    (below : d.toRat < (2 : Rat) ^ (54 : Int)) : positionValue (nearestIndex d.toRat) = d.toRat := by
  obtain ⟨e, power⟩ := Int.eq_succ_of_zero_lt exponent
  have even : d.toRat = ((d.digits * 5 * 10 ^ e : Nat) : Rat) * (2 : Rat) ^ (1 : Int) := by
    rw [Decimal.toRat, power, zpow_add_one₀ (by norm_num), zpow_natCast]
    push_cast
    ring
  rw [even] at below ⊢
  have few : ((d.digits * 5 * 10 ^ e : Nat) : Rat) < (0x20000000000000 : Nat) := by
    norm_num at below ⊢
    linarith
  exact positionValue_nearestIndex_mul_zpow (Nat.cast_lt.1 few) (by decide)

/-- A whole value below `10 ^ 16` with few digits is a decimal with as few, since past `10 ^ 15` it is
nearest to a multiple of ten. -/
theorem HasKeptDigits.exists_decimal (few : HasKeptDigits (finite s m)) (value : m.toRat = k)
    (small : k < 10 ^ 16) : ∃ d : Decimal, d.digits < 10 ^ 15 ∧ d.toRat = k := by
  rcases Nat.lt_or_ge (10 ^ 15) k with large | short
  · obtain ⟨d, digits, exponent, made⟩ := few.exists_exponent_pos (by
      rw [value]
      exact_mod_cast large)
    have read : positionValue (nearestIndex d.toRat) = k := by
      rw [(roundMagnitude_eq_finite_iff.1 made).2, ← toRat_eq, value]
    have below : d.toRat < (2 : Rat) ^ (54 : Int) := by
      by_contra past
      have bound : (1 : Nat) * (2 : Rat) ^ (54 : Int) ≤ d.toRat := by
        rw [Nat.cast_one, one_mul]
        exact not_lt.1 past
      have mono := positionValue_nearestIndex_mono bound
      rw [positionValue_nearestIndex_mul_zpow (by decide) (by decide), read] at mono
      have cast : (k : Rat) < 10 ^ 16 := by exact_mod_cast small
      norm_num at mono
      linarith
    exact ⟨d, digits, (positionValue_nearestIndex_of_exponent_pos exponent below).symm.trans read⟩
  · obtain ⟨d, digits, same⟩ :=
      Decimal.exists_digits_lt_of_le (d := ⟨k, 0⟩) (by decide : 0 < 15) short
    refine ⟨d, digits, same.trans ?_⟩
    rw [Decimal.toRat, zpow_zero, mul_one]

/-- A decimal of few digits that reads back is what is printed. -/
theorem exists_natCast_of_reads (digits : d.digits < 10 ^ 15) (whole : d.toRat * 10 ^ places = k)
    (normal : (2 : Rat) ^ (-1022 : Int) < m.toRat) (reads : nearestIndex d.toRat = m.index) :
    ∃ k : Nat, m.shortest.toRat * 10 ^ places = k :=
  ⟨k, by rw [toRat_shortest_of_reads digits normal (reads_iff.2 reads), whole]⟩

/-- The decimal that stands for a large magnitude has no more places. -/
theorem exists_natCast_of_large (large : (10 : Rat) ^ 16 ≤ m.toRat * 10 ^ places) :
    ∃ k : Nat, m.shortest.toRat * 10 ^ places = k := by
  have power : (0 : Rat) < 10 ^ places := pow_pos (by norm_num) places
  have pos : 0 < m.toRat := by
    rw [← mul_pos_iff_of_pos_right power]
    exact lt_of_lt_of_le (by norm_num) large
  have decade : (10 : Rat) ^ (16 - (places : Int)) ≤ m.toRat := by
    rw [zpow_sub₀ (by norm_num), zpow_natCast, div_le_iff₀ power]
    exact_mod_cast large
  rw [zpow_le_iff 10 pos] at decade
  have exponent := le_exponent_shortest pos
  rw [← Decimal.toRat_shift]
  exact Decimal.exists_natCast (by dsimp only; omega)

/-- The quotient of a whole number by a power of ten is not subnormal. -/
theorem normal_of_quotient (few : places ≤ 22) (pos : 0 < k)
    (back : nearestIndex (k / 10 ^ places) = m.index) : (2 : Rat) ^ (-1022 : Int) < m.toRat := by
  have power : (10 : Rat) ^ places ≤ 10 ^ 22 := pow_le_pow_right₀ (by norm_num) few
  have bound : (1 : Nat) * (2 : Rat) ^ (-100 : Int) ≤ k / 10 ^ places := by
    have one_le : (1 : Rat) ≤ k := by exact_mod_cast pos
    rw [le_div_iff₀ (pow_pos (by norm_num) places)]
    norm_num at power ⊢
    linarith
  have mono := positionValue_nearestIndex_mono bound
  rw [positionValue_nearestIndex_mul_zpow (by decide) (by decide), back, ← toRat_eq] at mono
  refine lt_of_lt_of_le ?_ mono
  rw [Nat.cast_one, one_mul]
  exact zpow_lt_zpow_right₀ (by norm_num) (by norm_num)

/-- A whole value with few digits, divided by a power of ten. -/
theorem exists_natCast_of_quotient {n : Magnitude} (few : places ≤ 22)
    (kept : HasKeptDigits (finite s n)) (natural : n.toRat = k) (pos : 0 < k)
    (back : nearestIndex (k / 10 ^ places) = m.index) :
    ∃ k : Nat, m.shortest.toRat * 10 ^ places = k := by
  have power : (0 : Rat) < 10 ^ places := pow_pos (by norm_num) places
  have normal := normal_of_quotient few pos back
  rcases Nat.lt_or_ge k (10 ^ 16) with small | past
  · obtain ⟨d, digits, decimal⟩ := kept.exists_decimal natural small
    have quotient : (Decimal.mk d.digits (d.exponent - places)).toRat * 10 ^ places = k := by
      rw [← Decimal.toRat_shift, ← decimal]
      simp only [sub_add_cancel]
    refine exists_natCast_of_reads (d := ⟨d.digits, d.exponent - places⟩) digits quotient normal ?_
    rw [← back, ← quotient, mul_div_cancel_right₀ _ power.ne']
  · rcases le_or_gt ((10 : Rat) ^ 16) (m.toRat * 10 ^ places) with large | less
    · exact exists_natCast_of_large large
    · -- Scaled, the value lies below `10 ^ 16`, but it is nearest to a number that does not, so that
      -- it is the value nearest to this power of ten.
      have quotient : (Decimal.mk 1 (16 - places)).toRat * 10 ^ places = (10 ^ 16 : Nat) := by
        rw [← Decimal.toRat_shift, Decimal.toRat]
        dsimp only
        rw [sub_add_cancel]
        norm_num
      refine exists_natCast_of_reads (d := ⟨1, 16 - places⟩) (by norm_num) quotient normal ?_
      rw [eq_div_of_mul_eq power.ne' quotient]
      apply le_antisymm
      · rw [← back]
        exact nearestIndex_mono (div_le_div_of_nonneg_right (Nat.cast_le.2 past) power.le)
      · refine m.le_nearestIndex_of_le ((le_div_iff₀ power).2 ?_)
        push_cast
        exact less.le

/-- The decimal that stands for a rounded value is a whole number of units of the rounded place. -/
theorem exists_natCast_of_settled (few : places ≤ 22) (settled : Settled places (finite s m)) :
    ∃ k : Nat, m.shortest.toRat * 10 ^ places = k := by
  obtain ⟨f, factor, value⟩ := exists_powerOfTen few
  generalize same : finite s m = x at settled
  cases settled with
  | unscaled overflow =>
    subst same
    rw [factor, finite_mul, ← Bool.not_eq_true, isFinite_roundMagnitude_iff, not_lt, value] at overflow
    have most : (10 : Rat) ^ 16 ≤ largest.toRat := by decide +kernel
    exact exists_natCast_of_large (most.trans (largest_lt_of_past overflow).le)
  | @quotient t n g factor' le kept whole =>
    cases factor'.symm.trans factor
    rw [finite_div _ _ le, value, eq_comm, roundMagnitude_eq_finite_iff] at same
    obtain ⟨rfl, back⟩ := same
    obtain ⟨k, natural⟩ : ∃ k : Nat, n.toRat = k := by
      cases whole with
      | finite _ natural => exact ⟨_, natural⟩
    rw [natural] at back
    rcases Nat.eq_zero_or_pos k with rfl | pos
    · have zero : m.index = 0 := by
        rw [← back, Nat.cast_zero, zero_div, nearestIndex_zero]
      rw [shortest, if_pos zero]
      exact ⟨0, by simp [Decimal.toRat]⟩
    · exact exists_natCast_of_quotient few kept natural pos back

end Calculator.Binary64
