import Calculator.Number
import Calculator.Proofs.Binary64.Integer
import Calculator.Proofs.Binary64.WholePlaces
import Calculator.Proofs.Decimal.Shortest
import Calculator.Proofs.Decimal.Text
import Calculator.Proofs.Token.Reading

/-!
# Numbers and the values that they stand for

A value is an integer exactly if it is whole and within the range, and the number that stands for it has
its value, up to the sign of a zero. What is not negative is written as a literal, and the value nearest
to the literal is the value of the number.
-/

namespace Calculator.Number

open Binary64

theorem toRat?_leastValue : leastValue.toRat? = some (least : Rat) := by decide +kernel

theorem toRat?_pastLargest : pastLargest.toRat? = some ((largest + 1 : Int) : Rat) := by decide +kernel

/-- The values that are taken as integers are the whole numbers of the range. -/
theorem integer_conditions_iff {x : Binary64} :
    (x.isFinite = true ∧ x.fract.isZero = true ∧ leastValue ≤ x ∧ x < pastLargest) ↔
      ∃ n : Int, x.toRat? = some (n : Rat) ∧ least ≤ n ∧ n ≤ largest := by
  cases x with
  | nan => exact iff_of_false nofun fun ⟨_, value, _⟩ => Option.some_ne_none _ value.symm
  | infinite s => exact iff_of_false nofun fun ⟨_, value, _⟩ => Option.some_ne_none _ value.symm
  | finite s m =>
    have isFinite : (finite s m).isFinite = true := rfl
    rw [and_iff_right isFinite, isZero_fract_iff]
    constructor
    · rintro ⟨⟨k, natural⟩, lower, upper⟩
      obtain ⟨n, sign⟩ := exists_intCast_signed s k
      have value : (finite s m).toRat? = some (n : Rat) := by rw [toRat?, natural, sign]
      rw [le_iff_of_toRat? toRat?_leastValue value, Int.cast_le] at lower
      rw [lt_iff_of_toRat? value toRat?_pastLargest, Int.cast_lt] at upper
      exact ⟨n, value, lower, Int.le_of_lt_add_one upper⟩
    · rintro ⟨n, value, lower, upper⟩
      refine ⟨⟨_, toRat_eq_natAbs value⟩, ?_, ?_⟩
      · rwa [le_iff_of_toRat? toRat?_leastValue value, Int.cast_le]
      · rw [lt_iff_of_toRat? value toRat?_pastLargest, Int.cast_lt]
        exact Int.lt_add_one_of_le upper

/-- A whole number of the range is taken as an integer, to which the cast is exact. -/
theorem ofBinary64_of_toRat? {x : Binary64} {n : Int} (value : x.toRat? = some (n : Rat))
    (lower : least ≤ n) (upper : n ≤ largest) : ofBinary64 x = integer n := by
  rw [ofBinary64, if_pos (integer_conditions_iff.2 ⟨n, value, lower, upper⟩),
    toIntWithin_of_toRat? value lower upper]

/-- Everything else stays as it is. -/
theorem ofBinary64_eq_float {x : Binary64}
    (other : ¬ ∃ n : Int, x.toRat? = some (n : Rat) ∧ least ≤ n ∧ n ≤ largest) :
    ofBinary64 x = float x := by
  rw [ofBinary64, if_neg (mt integer_conditions_iff.1 other)]

/-- Only floats are not finite. -/
theorem ofBinary64_eq_of_not_isFinite {x : Binary64} (overflow : x.isFinite = false) :
    ofBinary64 x = float x := by
  refine ofBinary64_eq_float fun ⟨n, value, _⟩ => ?_
  rw [toRat?_eq_none overflow] at value
  cases value

/-- A value stays a float, or it is in the range and the integer equal to it stands for it. -/
theorem ofBinary64_cases (x : Binary64) :
    ofBinary64 x = float x ∨ ∃ n : Int, ofBinary64 x = integer n ∧
      x.toRat? = some (n : Rat) ∧ least ≤ n ∧ n ≤ largest := by
  by_cases whole : ∃ n : Int, x.toRat? = some (n : Rat) ∧ least ≤ n ∧ n ≤ largest
  · obtain ⟨n, value, lower, upper⟩ := whole
    exact .inr ⟨n, ofBinary64_of_toRat? value lower upper, value, lower, upper⟩
  · exact .inl (ofBinary64_eq_float whole)

theorem eq_of_ofBinary64_eq_float {x y : Binary64} (made : ofBinary64 x = float y) : x = y := by
  rcases ofBinary64_cases x with same | ⟨n, whole, -⟩
  · exact Number.float.inj (same.symm.trans made)
  · cases whole.symm.trans made

/-- An integer stands for the values equal to it and is in the range. -/
theorem value_of_ofBinary64_eq_integer {x : Binary64} {n : Int} (made : ofBinary64 x = integer n) :
    x.toRat? = some (n : Rat) ∧ least ≤ n ∧ n ≤ largest := by
  rcases ofBinary64_cases x with same | ⟨k, whole, value⟩
  · cases same.symm.trans made
  · cases whole.symm.trans made
    exact value

/-- Within the range an integer stands for the values equal to it. -/
theorem ofBinary64_eq_integer_iff {x : Binary64} {n : Int} (lower : least ≤ n)
    (upper : n ≤ largest) : ofBinary64 x = integer n ↔ x.toRat? = some (n : Rat) :=
  ⟨fun made => (value_of_ofBinary64_eq_integer made).1,
    fun value => ofBinary64_of_toRat? value lower upper⟩

example : ofBinary64 (ofInt (2 ^ 53 + 1)) = integer (2 ^ 53) := by decide +kernel

theorem ofBinary64_zero (s : Bool) : ofBinary64 (.finite s .zero) = integer 0 :=
  ofBinary64_of_toRat? (toRat?_zero s) (by decide) (by decide)

theorem toBinary64_zero : (integer 0).toBinary64 = .finite false .zero := by
  rw [toBinary64, ofInt, Int.cast_zero, nearest, if_pos rfl]

/-- The number that stands for a value has this value, but for the sign of a zero. -/
theorem toBinary64_ofBinary64 (x : Binary64) :
    (ofBinary64 x).toBinary64 = x ∨
      (∃ s, x = .finite s .zero) ∧ (ofBinary64 x).toBinary64 = .finite false .zero := by
  rcases ofBinary64_cases x with same | ⟨n, whole, value, -⟩
  · exact .inl (by rw [same, toBinary64])
  · rw [whole]
    rcases eq_or_ne n 0 with rfl | nonzero
    · exact .inr ⟨eq_zero_of_toRat? value, toBinary64_zero⟩
    · exact .inl (nearest_eq_of_toRat? value (Int.cast_ne_zero.2 nonzero) false)

/-- The number is the one that stands for its value. -/
theorem ofBinary64_toBinary64_ofBinary64 (x : Binary64) :
    ofBinary64 (ofBinary64 x).toBinary64 = ofBinary64 x := by
  rcases toBinary64_ofBinary64 x with same | ⟨⟨s, rfl⟩, zero⟩
  · rw [same]
  · rw [zero, ofBinary64_zero, ofBinary64_zero]

/-- The value of the number that stands for a value equals it. -/
theorem toBinary64_ofBinary64_le {x : Binary64} (number : x ≠ .nan) :
    (ofBinary64 x).toBinary64 ≤ x ∧ x ≤ (ofBinary64 x).toBinary64 := by
  rcases toBinary64_ofBinary64 x with same | ⟨⟨s, rfl⟩, zero⟩
  · rw [same]
    exact ⟨le_self_iff.2 number, le_self_iff.2 number⟩
  · rw [zero, le_iff_of_toRat? (toRat?_zero false) (toRat?_zero s),
      le_iff_of_toRat? (toRat?_zero s) (toRat?_zero false)]
    exact ⟨le_refl _, le_refl _⟩

/-- **Results.** A value is taken as an integer exactly if it is a whole number of 64 bits, and then as
the integer that it is; any other value stays as it is. The value of the result equals the value that it
was made from, and the same result stands for it, although not every integer of 64 bits is a value. -/
theorem ofBinary64_eq_integer_iff_whole (x : Binary64) :
    (∀ n : Int, ofBinary64 x = integer n ↔
      x.toRat? = some (n : Rat) ∧ -2 ^ 63 ≤ n ∧ n < 2 ^ 63) ∧
    ((¬ ∃ n : Int, x.toRat? = some (n : Rat) ∧ -2 ^ 63 ≤ n ∧ n < 2 ^ 63) →
      ofBinary64 x = float x) ∧
    (x ≠ .nan → (ofBinary64 x).toBinary64 ≤ x ∧ x ≤ (ofBinary64 x).toBinary64) ∧
    ofBinary64 (ofBinary64 x).toBinary64 = ofBinary64 x ∧
    ∃ n : Int, -2 ^ 63 ≤ n ∧ n < 2 ^ 63 ∧ (integer n).toBinary64.toRat? ≠ some (n : Rat) := by
  have range : ∀ n : Int, -2 ^ 63 ≤ n ∧ n < 2 ^ 63 ↔ least ≤ n ∧ n ≤ largest := by
    intro n
    rw [least, largest]
    omega
  simp only [range]
  refine ⟨fun n => ⟨value_of_ofBinary64_eq_integer, ?_⟩, ofBinary64_eq_float,
    toBinary64_ofBinary64_le, ofBinary64_toBinary64_ofBinary64 x, ?_⟩
  · rintro ⟨value, lower, upper⟩
    exact ofBinary64_of_toRat? value lower upper
  · -- Past `2 ^ 53` the odd numbers are missing.
    exact ⟨2 ^ 53 + 1, by decide, by decide, by decide +kernel⟩

/-- The least integer is in the range, its opposite is not, and the negative zero is zero. -/
theorem ofBinary64_of_range_ends :
    ofBinary64 leastValue = integer (-2 ^ 63) ∧
      (¬ ∃ n : Int, pastLargest.toRat? = some (n : Rat) ∧ -2 ^ 63 ≤ n ∧ n < 2 ^ 63) ∧
      ofBinary64 pastLargest = float pastLargest ∧
      finite true .zero ≠ .nan ∧ ofBinary64 (finite true .zero) = integer 0 ∧
      (integer 0).toBinary64 ≤ finite true .zero ∧ finite true .zero ≤ (integer 0).toBinary64 := by
  have past : ¬ ∃ n : Int, pastLargest.toRat? = some (n : Rat) ∧ -2 ^ 63 ≤ n ∧ n < 2 ^ 63 := by
    rintro ⟨n, value, -, upper⟩
    rw [toRat?_pastLargest] at value
    rw [← Int.cast_injective (Option.some.inj value)] at upper
    exact absurd upper (by decide)
  have zero : ofBinary64 (finite true .zero) = integer 0 :=
    ((ofBinary64_eq_integer_iff_whole _).1 0).2 ⟨toRat?_zero true, by decide, by decide⟩
  have equal := (ofBinary64_eq_integer_iff_whole (finite true .zero)).2.2.1 nofun
  rw [zero] at equal
  exact ⟨((ofBinary64_eq_integer_iff_whole leastValue).1 (-2 ^ 63)).2
      ⟨toRat?_leastValue, by decide, by decide⟩,
    past, (ofBinary64_eq_integer_iff_whole pastLargest).2.1 past, nofun, zero, equal⟩

/-- A number that is not negative is written as a literal that is nearest to its value. -/
theorem exists_spells_text {n : Number} {q : Rat} (normal : ofBinary64 n.toBinary64 = n)
    (value : n.toBinary64.toRat? = some q) (nonneg : 0 ≤ q) :
    ∃ r, Spells r n.text ∧ nearest false r = n.toBinary64 := by
  cases n with
  | integer k =>
    have whole := (value_of_ofBinary64_eq_integer normal).1
    rw [value] at whole
    rw [Option.some.inj whole, Int.cast_nonneg_iff] at nonneg
    obtain ⟨k, rfl⟩ := Int.eq_ofNat_of_zero_le nonneg
    have spelled := Spells.whole Nat.toDigits_ne_nil (Decimal.all_isDigit_toDigits k)
    rw [Nat.ofDigitChars_ten_toDigits] at spelled
    refine ⟨k, ?_, ?_⟩
    · rwa [text, if_neg (not_lt.2 nonneg)]
    · rw [toBinary64, ofInt, Int.cast_natCast]
  | float x =>
    cases x with
    | nan => cases value
    | infinite s => cases value
    | finite s m =>
      have sign : s = false := by
        rw [← Bool.not_eq_true]
        rintro rfl
        have zero : m.toRat = Magnitude.zero.toRat := by
          have negated : -m.toRat = q := Option.some.inj value
          rw [Magnitude.zero_toRat]
          linarith [m.toRat_nonneg]
        rw [Magnitude.toRat_injective zero, toBinary64, ofBinary64_zero] at normal
        cases normal
      subst sign
      exact ⟨m.shortest.toRat, m.shortest.spells_text, nearest_shortest false m⟩

end Calculator.Number
