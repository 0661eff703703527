import Calculator.Decimal.Shortest
import Calculator.Proofs.Binary64.Finite
import Calculator.Proofs.Decimal.Recovery

/-!
# The shortest decimal reads back

Every decimal that is chosen for a magnitude has been tried, and the exact value, which is taken if none
is found, reads back as well. A decimal is found with a count of digits if the cut to that count reads
back, which it does for seventeen digits. Decimals of at most fifteen digits are further apart than
magnitudes, so that no two of them stand for the same one.
-/

namespace Calculator

namespace Magnitude

variable {m : Magnitude}

theorem reads_iff {d : Decimal} : m.reads d = true ↔ nearestIndex d.toRat = m.index := beq_iff_eq

/-- The chosen decimal is one of the two and reads back. -/
theorem of_choose?_eq_some {below above d : Decimal} (chosen : m.choose? below above = some d) :
    (d = below ∨ d = above) ∧ m.reads d = true := by
  unfold choose? at chosen
  split at chosen
  · rename_i reads reads'
    obtain rfl := Option.some.inj chosen
    split
    · exact ⟨.inl rfl, reads⟩
    · exact ⟨.inr rfl, reads'⟩
  · rename_i reads _
    obtain rfl := Option.some.inj chosen
    exact ⟨.inl rfl, reads⟩
  · rename_i _ reads
    obtain rfl := Option.some.inj chosen
    exact ⟨.inr rfl, reads⟩
  · cases chosen

/-- One is chosen as soon as one reads back. -/
theorem exists_choose? {below above : Decimal}
    (reads : m.reads below = true ∨ m.reads above = true) : ∃ d, m.choose? below above = some d := by
  unfold choose?
  split
  · exact ⟨_, rfl⟩
  · exact ⟨_, rfl⟩
  · exact ⟨_, rfl⟩
  · rename_i other other'
    rw [other, other', or_self] at reads
    cases reads

section Digits

variable {count : Nat} {d : Decimal}

/-- What is found with a count of digits is written in units of the last of these digits. -/
theorem of_withDigits?_eq_some (pos : 0 < m.toRat) (found : m.withDigits? count = some d) :
    d.exponent = Int.log 10 m.toRat - count + 1 ∧ d.digits ≤ 10 ^ count ∧ m.reads d = true := by
  have unit : (0 : Rat) < (10 : Rat) ^ (Int.log 10 m.toRat - count + 1) := zpow_pos (by norm_num) _
  have below : (m.toRat / (10 : Rat) ^ (Int.log 10 m.toRat - count + 1)).floor.toNat < 10 ^ count := by
    have lower := (floor_toNat_bounds (div_pos pos unit).le).1
    have upper : m.toRat / (10 : Rat) ^ (Int.log 10 m.toRat - count + 1) < (10 ^ count : Nat) :=
      (div_lt_iff₀ unit).2 (Decimal.lt_decade_end pos)
    exact_mod_cast lower.trans_lt upper
  rw [withDigits?, decade_eq_log pos] at found
  obtain ⟨rfl | rfl, reads⟩ := of_choose?_eq_some found
  · exact ⟨rfl, below.le, reads⟩
  · exact ⟨rfl, below, reads⟩

/-- A decimal is found with a count of digits if the cut to this count reads back. -/
theorem exists_withDigits? (pos : 0 < m.toRat)
    (reads : m.reads (Decimal.significant count m.toRat) = true) :
    ∃ d, m.withDigits? count = some d := by
  rw [Decimal.significant, if_neg (not_le.2 pos)] at reads
  have bounds := nearestNat_bounds .toEven (m.toRat / (10 : Rat) ^ (decade m.toRat - count + 1))
  refine exists_choose? ?_
  rcases bounds.1.eq_or_lt with same | less
  · exact .inl (same ▸ reads)
  · exact .inr (Nat.le_antisymm bounds.2 less ▸ reads)

/-- If the cut to a count of digits reads back, the decimal that stands for the magnitude is found with
no more digits. -/
theorem exists_withDigits?_eq_shortest (nonempty : 0 < count) (few : count ≤ 17) (pos : 0 < m.toRat)
    (reads : m.reads (Decimal.significant count m.toRat) = true) :
    ∃ c ≤ count, m.withDigits? c = some m.shortest := by
  obtain ⟨d, found⟩ := exists_withDigits? pos reads
  have nonzero : m.index ≠ 0 := (toRat_pos_iff.1 pos).ne'
  have tried : count - 1 ∈ List.range 17 := List.mem_range.2 (by omega)
  have last : m.withDigits? (count - 1 + 1) = some d := by rwa [Nat.sub_add_cancel nonempty]
  rw [shortest, if_neg nonzero]
  cases search : (List.range 17).findSome? fun n => m.withDigits? (n + 1) with
  | none => exact absurd (List.findSome?_eq_none_iff.1 search _ tried) (last ▸ Option.some_ne_none d)
  | some e =>
    obtain ⟨before, n, after, split, first, earlier⟩ := List.findSome?_eq_some_iff.1 search
    refine ⟨n + 1, ?_, first⟩
    -- Nothing was found before, but the count would have been tried.
    by_contra longer
    have sorted := List.pairwise_lt_range (n := 17)
    rw [split, List.pairwise_append, List.pairwise_cons] at sorted
    rw [split, List.mem_append, List.mem_cons] at tried
    rcases tried with mem | same | mem
    · exact absurd (earlier _ mem) (last ▸ Option.some_ne_none d)
    · omega
    · have later := sorted.2.1.1 _ mem
      omega

/-- Seventeen digits are closer to a magnitude than to its neighbours. -/
theorem reads_significant_seventeen (pos : 0 < m.toRat) :
    m.reads (Decimal.significant 17 m.toRat) = true := by
  have error : |(Decimal.significant 17 m.toRat).toRat - m.toRat| ≤
      (10 : Rat) ^ (Int.log 10 m.toRat - (17 : Nat) + 1) / 2 :=
    Decimal.abs_toRat_significant_sub_le pos
  have first : (10 : Rat) ^ Int.log 10 m.toRat ≤ m.toRat := (zpow_le_iff 10 pos).2 (le_refl _)
  have start := Decimal.decade_end 16 (Int.log 10 m.toRat - (17 : Nat) + 1)
  rw [show Int.log 10 m.toRat - (17 : Nat) + 1 + (16 : Nat) = Int.log 10 m.toRat by omega] at start
  push_cast at start
  rw [reads_iff]
  refine nearestIndex_eq_of_near (toRat_pos_iff.1 pos) ?_
  rw [← toRat_eq]
  refine error.trans_lt ?_
  push_cast
  linarith

/-- The decimal that stands for a magnitude is a whole number of units of its seventeenth digit. -/
theorem le_exponent_shortest (pos : 0 < m.toRat) :
    Int.log 10 m.toRat - 16 ≤ m.shortest.exponent := by
  obtain ⟨c, few, found⟩ :=
    exists_withDigits?_eq_shortest (by decide) (le_refl 17) pos (reads_significant_seventeen pos)
  have exponent := (of_withDigits?_eq_some pos found).1
  omega

/-- A decimal of at most fifteen digits that reads back is the one that stands for the magnitude. -/
theorem toRat_shortest_of_reads (digits : d.digits < 10 ^ 15)
    (normal : (2 : Rat) ^ (-1022 : Int) < m.toRat) (reads : m.reads d = true) :
    m.shortest.toRat = d.toRat := by
  have pos : 0 < m.toRat := lt_trans (zpow_pos (by norm_num) _) normal
  -- The magnitude has one cut, to which both decimals are equal.
  have cut {e : Decimal} (few : e.digits < 10 ^ 15) (back : m.reads e = true) :
      (Decimal.significant 15 m.toRat).toRat = e.toRat := by
    have read : positionValue (nearestIndex e.toRat) = m.toRat := by rw [reads_iff.1 back, toRat_eq]
    have recovered := Decimal.toRat_significant_nearest (le_refl 15) few
      (normal_of_lt (read ▸ normal))
    rwa [read] at recovered
  have own := cut digits reads
  have kept : m.reads (Decimal.significant 15 m.toRat) = true := by
    rw [reads_iff, own, reads_iff.1 reads]
  obtain ⟨c, few, found⟩ := exists_withDigits?_eq_shortest (by decide) (by decide) pos kept
  obtain ⟨-, most, back⟩ := of_withDigits?_eq_some pos found
  obtain ⟨e, short, same⟩ := Decimal.exists_digits_lt_of_le (by decide : 0 < 15)
    (most.trans (Nat.pow_le_pow_right (by decide) few))
  rw [← same, ← cut short (by rwa [reads_iff, same, ← reads_iff]), own]

end Digits

theorem toRat_exactDecimal (m : Magnitude) : m.exactDecimal.toRat = m.toRat := by
  unfold exactDecimal
  split
  · rename_i whole
    obtain ⟨k, exponent⟩ := Int.eq_ofNat_of_zero_le whole
    simp [Decimal.toRat, toRat, exponent]
  · rename_i fraction
    obtain ⟨k, exponent⟩ := Int.exists_eq_neg_ofNat (not_le.1 fraction).le
    have five : (5 : Rat) ^ k * (10 : Rat) ^ (-(k : Int)) = (2 : Rat) ^ (-(k : Int)) := by
      rw [zpow_neg, zpow_neg, zpow_natCast, zpow_natCast, show (10 : Rat) = 5 * 2 by norm_num,
        mul_pow, mul_inv, mul_inv_cancel_left₀ (pow_ne_zero k (by norm_num))]
    simp only [Decimal.toRat, toRat, exponent, neg_neg, Int.toNat_natCast, Nat.pow_eq]
    push_cast
    rw [mul_assoc, five]

theorem reads_shortest (m : Magnitude) : m.reads m.shortest = true := by
  unfold shortest
  split
  · rename_i zero
    rw [reads_iff, zero, Decimal.toRat, Nat.cast_zero, zero_mul, nearestIndex_zero]
  · cases found : (List.range 17).findSome? fun n => m.withDigits? (n + 1) with
    | none =>
      rw [Option.getD_none, reads_iff, toRat_exactDecimal, nearestIndex_toRat]
    | some d =>
      obtain ⟨n, -, chosen⟩ := List.exists_of_findSome?_eq_some found
      exact (of_choose?_eq_some chosen).2

end Magnitude

namespace Binary64

/-- The decimal that stands for a magnitude is read as the value, with either sign. -/
theorem nearest_shortest (s : Bool) (m : Magnitude) :
    nearest s (signed s m.shortest.toRat) = finite s m := by
  rw [nearest_signed s m.shortest.toRat_nonneg]
  exact roundMagnitude_eq_finite_iff.2 ⟨rfl, Magnitude.reads_iff.1 m.reads_shortest⟩

end Binary64

end Calculator
