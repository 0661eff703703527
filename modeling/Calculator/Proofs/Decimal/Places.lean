import Calculator.Proofs.Decimal.Text

/-!
# Written places

A decimal is written with as many digits after its point as it needs. The last of them is not a zero, so
that a decimal that is a whole number of tenths, hundredths and so on has no digit behind that place, and
a whole number has no point.
-/

namespace Calculator

/-- The number of characters after the first point of a text. -/
def placesWritten (text : List Char) : Nat :=
  (text.dropWhile (· != '.')).tail.length

theorem placesWritten_append {front : List Char} (absent : '.' ∉ front) (rest : List Char) :
    placesWritten (front ++ rest) = placesWritten rest := by
  rw [placesWritten, placesWritten, List.dropWhile_append_of_pos]
  intro c mem
  exact bne_iff_ne.2 (ne_of_mem_of_not_mem mem absent)

theorem placesWritten_of_not_mem {text : List Char} (absent : '.' ∉ text) : placesWritten text = 0 := by
  rw [← text.append_nil, placesWritten_append absent]
  rfl

theorem not_mem_of_all_isDigit {digits : List Char} (numeric : digits.all Char.isDigit = true) :
    '.' ∉ digits := by
  intro mem
  exact absurd (List.all_eq_true.1 numeric _ mem) (by decide)

namespace Decimal

variable {d : Decimal} {places k : Nat}

/-- A whole number of units of a place is written with no digit behind the place. -/
theorem placesWritten_text_le (whole : d.toRat * 10 ^ places = k) :
    placesWritten d.text ≤ places ∧ (places = 0 → '.' ∉ d.text) := by
  obtain ⟨front, fraction, written, -, digits, -, value, last⟩ := d.exists_text
  have short : fraction.length ≤ places := by
    by_contra long
    obtain ⟨extra, length⟩ := Nat.exists_eq_add_of_lt (Nat.lt_of_not_le long)
    have nonempty : fraction ≠ [] := List.ne_nil_of_length_pos (by omega)
    -- The number of the written digits would be divisible by ten.
    refine last nonempty ⟨k * 10 ^ extra, ?_⟩
    generalize Nat.ofDigitChars 10 (front ++ fraction) 0 = n at value
    have kept : (10 : Rat) ^ places ≠ 0 := pow_ne_zero places (by norm_num)
    rw [value, length, div_mul_eq_mul_div, Nat.add_assoc, pow_add, mul_comm,
      mul_div_mul_left _ _ kept, div_eq_iff (pow_ne_zero _ (by norm_num)), pow_succ] at whole
    have same : (n : Rat) = ((10 * (k * 10 ^ extra) : Nat) : Rat) := by
      rw [whole]
      push_cast
      ring
    exact Nat.cast_injective same
  have clean := not_mem_of_all_isDigit digits
  rw [written]
  cases fraction with
  | nil =>
    rw [List.isEmpty_nil, if_pos rfl, List.append_nil, placesWritten_of_not_mem clean]
    exact ⟨Nat.zero_le _, fun _ => clean⟩
  | cons c rest =>
    rw [List.isEmpty_cons, if_neg Bool.false_ne_true, placesWritten_append clean]
    refine ⟨short, ?_⟩
    rintro rfl
    exact absurd short (Nat.not_succ_le_zero _)

end Decimal

end Calculator
