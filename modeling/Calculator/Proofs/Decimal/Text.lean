import Mathlib.Data.List.DropRight
import Calculator.Grammar
import Calculator.Proofs.Decimal.Significant

/-!
# The text of a decimal

A decimal is a whole number of units of its last place. The positional text writes the whole part of the
quotient by the unit, and after the point the rest with as many digits as there are places, without the
zeros at the end. Read as digits with a point it is the decimal again.
-/

namespace Calculator.Decimal

theorem all_isDigit_toDigits (n : Nat) : (Nat.toDigits 10 n).all Char.isDigit = true :=
  List.all_eq_true.2 fun _ mem => Nat.isDigit_of_mem_toDigits (by decide) (by decide) mem

/-- Digits without the zeros at their end. -/
theorem exists_rdropWhile_zeros (digits : List Char) :
    ∃ zeros, digits = digits.rdropWhile (· == '0') ++ List.replicate zeros '0' := by
  refine ⟨(digits.rtakeWhile (· == '0')).length, ?_⟩
  have zeros : digits.rtakeWhile (· == '0') =
      List.replicate (digits.rtakeWhile (· == '0')).length '0' :=
    List.eq_replicate_of_mem fun c mem => by simpa using List.mem_rtakeWhile_imp mem
  rw [← zeros, List.rdropWhile_append_rtakeWhile]

/-- The number of some digits is divisible by ten only if the last of them is a zero. -/
theorem not_dvd_ofDigitChars {digits : List Char} (nonempty : digits ≠ [])
    (numeric : digits.all Char.isDigit = true) (last : digits.getLast nonempty ≠ '0') :
    ¬ 10 ∣ Nat.ofDigitChars 10 digits 0 := by
  have digit := List.all_eq_true.1 numeric _ (List.getLast_mem nonempty)
  rw [Char.isDigit_iff_toNat] at digit
  rw [ne_eq, ← Char.toNat_inj] at last
  rw [← List.dropLast_append_getLast nonempty, Nat.ofDigitChars_append, Nat.ofDigitChars_cons]
  generalize digits.getLast nonempty = c at digit last
  rw [Nat.ofDigitChars_nil]
  have zero : '0'.toNat = 48 := rfl
  have nine : '9'.toNat = 57 := rfl
  omega

/-- The digits of a fraction are those of its number without the zeros at the end. -/
theorem exists_fractionText {places digits : Nat} (small : digits < 10 ^ places) :
    ∃ zeros, (fractionText places digits).length + zeros = places ∧
      Nat.ofDigitChars 10 (fractionText places digits) 0 * 10 ^ zeros = digits ∧
      (fractionText places digits).all Char.isDigit = true := by
  rcases Nat.eq_zero_or_pos places with rfl | positive
  · obtain rfl : digits = 0 := by omega
    exact ⟨0, rfl, rfl, rfl⟩
  · have length : ((Nat.toDigits 10 digits).leftpad places '0').length = places := by
      have few := (Nat.length_toDigits_le_iff (by decide) positive).2 small
      rw [List.length_leftpad]
      omega
    have value : Nat.ofDigitChars 10 ((Nat.toDigits 10 digits).leftpad places '0') 0 = digits := by
      rw [List.leftpad, Nat.ofDigitChars_append, Nat.ofDigitChars_replicate_zero, Nat.mul_zero,
        Nat.ofDigitChars_ten_toDigits]
    have numeric : ((Nat.toDigits 10 digits).leftpad places '0').all Char.isDigit = true := by
      simp [List.leftpad, List.all_append, all_isDigit_toDigits]
    have text : fractionText places digits =
        ((Nat.toDigits 10 digits).leftpad places '0').rdropWhile (· == '0') := rfl
    obtain ⟨zeros, split⟩ := exists_rdropWhile_zeros ((Nat.toDigits 10 digits).leftpad places '0')
    rw [← text] at split
    rw [split] at length value numeric
    refine ⟨zeros, ?_, ?_, ?_⟩
    · rwa [List.length_append, List.length_replicate] at length
    · rw [Nat.ofDigitChars_append, Nat.ofDigitChars_replicate_zero, Nat.mul_comm] at value
      exact value
    · rw [List.all_append, Bool.and_eq_true] at numeric
      exact numeric.1

theorem getLast_fractionText {places digits : Nat} (nonempty : fractionText places digits ≠ []) :
    (fractionText places digits).getLast nonempty ≠ '0' := by
  have last := List.rdropWhile_last_not (· == '0') ((Nat.toDigits 10 digits).leftpad places '0') nonempty
  rwa [beq_iff_eq] at last

/-- The value as a fraction over a power of ten. -/
theorem toRat_eq_div (d : Decimal) :
    d.toRat = ((d.digits * 10 ^ d.exponent.toNat : Nat) : Rat) / 10 ^ (-d.exponent).toNat := by
  rcases le_total 0 d.exponent with whole | fraction
  · obtain ⟨k, exponent⟩ := Int.eq_ofNat_of_zero_le whole
    simp [toRat, exponent]
  · obtain ⟨k, exponent⟩ := Int.exists_eq_neg_ofNat fraction
    simp [toRat, exponent, div_eq_mul_inv]

/-- The text of a decimal consists of the digits of its whole part and, after a point, of those of its
fraction, if it has any. They are the digits of the whole number of its units, and only zeros are left out
at the end. -/
theorem exists_text (d : Decimal) :
    ∃ whole fraction, d.text = whole ++ (if fraction.isEmpty then [] else '.' :: fraction) ∧
      whole ≠ [] ∧ whole.all Char.isDigit = true ∧ fraction.all Char.isDigit = true ∧
      d.toRat = Nat.ofDigitChars 10 (whole ++ fraction) 0 / 10 ^ fraction.length ∧
      (fraction ≠ [] → ¬ 10 ∣ Nat.ofDigitChars 10 (whole ++ fraction) 0) := by
  simp only [toRat_eq_div, text, Nat.pow_eq]
  generalize (-d.exponent).toNat = places
  generalize d.digits * 10 ^ d.exponent.toNat = units
  obtain ⟨zeros, length, value, numeric⟩ :=
    exists_fractionText (Nat.mod_lt units (Nat.pow_pos (by decide) : 0 < 10 ^ places))
  have last (nonempty : fractionText places (units % 10 ^ places) ≠ []) := getLast_fractionText nonempty
  generalize fractionText places (units % 10 ^ places) = fraction at length value numeric last
  have front := all_isDigit_toDigits (units / 10 ^ places)
  refine ⟨_, fraction, rfl, Nat.toDigits_ne_nil, front, numeric, ?_, fun nonempty => ?_⟩
  · have digits : Nat.ofDigitChars 10 (Nat.toDigits 10 (units / 10 ^ places) ++ fraction) 0 *
        10 ^ zeros = units := by
      rw [Nat.ofDigitChars_append, Nat.ofDigitChars_ten_toDigits,
        Nat.ofDigitChars_eq_ofDigitChars_zero, Nat.add_mul, value, Nat.mul_right_comm, ← Nat.pow_add,
        length, Nat.div_add_mod]
    generalize Nat.ofDigitChars 10 (Nat.toDigits 10 (units / 10 ^ places) ++ fraction) 0 = n
      at digits ⊢
    rw [← digits, ← length, pow_add]
    push_cast
    have kept : (10 : Rat) ^ zeros ≠ 0 := pow_ne_zero zeros (by norm_num)
    exact mul_div_mul_right _ _ kept
  · refine not_dvd_ofDigitChars (List.append_ne_nil_of_right_ne_nil _ nonempty) ?_ ?_
    · rw [List.all_append, front, numeric, Bool.and_self]
    · rw [List.getLast_append_of_ne_nil _ nonempty]
      exact last nonempty

/-- The text of a decimal spells it. -/
theorem spells_text (d : Decimal) : Spells d.toRat d.text := by
  obtain ⟨whole, fraction, written, nonempty, front, numeric, value, -⟩ := d.exists_text
  rw [written, value]
  split
  · rename_i empty
    obtain rfl := List.isEmpty_iff.1 empty
    have spelled := Spells.whole nonempty front
    simpa using spelled
  · exact .point nonempty front numeric

end Calculator.Decimal
