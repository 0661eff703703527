import Calculator.Proofs.Binary64.Places
import Calculator.Proofs.Binary64.WholePlaces
import Calculator.Proofs.Number
import Calculator.Proofs.Outcome

/-!
# Rounded results

A result is an integer unless its value is not whole or too large for one. So a result without a finite
value is a float, and its value comes from the rounding, which has kept it or has made it from a finite
value whose cut overflows. And an expression with a whole value is reported as that integer exactly if
rounding to decimal places keeps the value.
-/

namespace Calculator

open Binary64

/-- **Overflow.** Rounding keeps the finite values finite, but for those whose scaled value is
finite and whose cut is not. A text has a result that is not finite exactly if its unrounded value is
not finite or is one of these. -/
theorem isFinite_rounded_iff (places : Nat) :
    (∀ x : Binary64, (x.roundToPlaces places).isFinite = true ↔
      x.isFinite = true ∧ ¬ x.CutOverflows places) ∧
    ∀ source : String, (∃ y, evaluate places source = .ok (.float y) ∧ y.isFinite = false) ↔
      ∃ tokens value, postorderOf source = .ok tokens ∧ reduce tokens = .ok value ∧
        (value.isFinite = false ∨ value.CutOverflows places) := by
  have rounded : ∀ value : Binary64, (value.roundToPlaces places).isFinite = false ↔
      value.isFinite = false ∨ value.CutOverflows places := by
    intro value
    rw [← Bool.not_eq_true, isFinite_roundToPlaces_iff, not_and_or, not_not, Bool.not_eq_true]
  refine ⟨fun x => isFinite_roundToPlaces_iff, fun source => ?_⟩
  constructor
  · rintro ⟨y, evaluated, overflow⟩
    obtain ⟨tokens, value, converted, reduced, made⟩ := evaluate_eq_ok_iff.1 evaluated
    rw [← Number.eq_of_ofBinary64_eq_float made] at overflow
    exact ⟨tokens, value, converted, reduced, (rounded value).1 overflow⟩
  · rintro ⟨tokens, value, converted, reduced, cause⟩
    have overflow := (rounded value).2 cause
    have made := Number.ofBinary64_eq_of_not_isFinite overflow
    exact ⟨_, evaluate_eq_ok_iff.2 ⟨tokens, value, converted, reduced, made⟩, overflow⟩

/-- The largest value is rounded to infinity. -/
theorem roundToPlaces_largest :
    (Binary64.finite false .largest).isFinite = true ∧
      (Binary64.finite false .largest).roundToPlaces 0 = .infinite false := by
  decide +kernel

/-- **Whole numbers.** Rounding to decimal places keeps a whole value that is too large to be scaled, and
one whose product with the factor is exact and nearest to a decimal of the kept digits. Up to `10 ^ 22`
no other value with an exact product is kept. A value whose product with the power of ten is at most
`2 ^ 53` is kept exactly if that product is below `10 ^ 15` or divisible by ten, as it is with at least
one decimal place. An expression with this value is reported as the integer exactly if the value is
kept. -/
theorem roundToPlaces_whole {x : Binary64} {n : Int} (value : x.toRat? = some (n : Rat))
    (lower : Number.least ≤ n) (upper : n ≤ Number.largest) (places : Nat) :
    ((x.mul (powerOfTen places)).isFinite = false →
      (x.roundToPlaces places).toRat? = some (n : Rat)) ∧
    (x.ScalesExactly places → HasKeptDigits (x.mul (powerOfTen places)) →
      (x.roundToPlaces places).toRat? = some (n : Rat)) ∧
    (places ≤ 22 → x.ScalesExactly places →
      ((x.roundToPlaces places).toRat? = some (n : Rat) ↔
        HasKeptDigits (x.mul (powerOfTen places)))) ∧
    (n.natAbs * 10 ^ places ≤ 2 ^ 53 →
      ((x.roundToPlaces places).toRat? = some (n : Rat) ↔
        n.natAbs * 10 ^ places < 10 ^ keptDigits ∨ 10 ∣ n.natAbs * 10 ^ places)) ∧
    ∀ source tokens, postorderOf source = .ok tokens → reduce tokens = .ok x →
      (evaluate places source = .ok (.integer n) ↔
        (x.roundToPlaces places).toRat? = some (n : Rat)) := by
  have range : n.natAbs ≤ 2 ^ 63 := by
    rw [Number.least] at lower
    rw [Number.largest] at upper
    omega
  refine ⟨toRat?_roundToPlaces_of_overflow value, toRat?_roundToPlaces_of_hasKeptDigits value,
    toRat?_roundToPlaces_iff_hasKeptDigits value range, toRat?_roundToPlaces_iff_dvd value, ?_⟩
  intro source tokens converted reduced
  rw [← Number.ofBinary64_eq_integer_iff lower upper, evaluate_eq_ok_iff]
  constructor
  · rintro ⟨tokens', x', converted', reduced', made⟩
    rw [converted] at converted'
    rw [← Except.ok.inj converted', reduced] at reduced'
    rwa [← Except.ok.inj reduced'] at made
  · intro made
    exact ⟨tokens, x, converted, reduced, made⟩

/-- The quotient of `10/2` is kept at two places. -/
theorem roundToPlaces_whole_of_ten_halves :
    (ofInt 5).toRat? = some ((5 : Int) : Rat) ∧ Number.least ≤ 5 ∧ 5 ≤ Number.largest ∧
      evaluate 2 "10/2" = .ok (.integer 5) := by
  have value : (ofInt 5).toRat? = some ((5 : Int) : Rat) := by decide +kernel
  have lower : Number.least ≤ 5 := by decide
  have upper : 5 ≤ Number.largest := by decide
  have converted : postorderOf "10/2" =
      .ok [.number (ofInt 10), .number (ofInt 2), .operator .div] := by
    decide +kernel
  have reduced : reduce [.number (ofInt 10), .number (ofInt 2), .operator .div] = .ok (ofInt 5) := by
    decide +kernel
  obtain ⟨-, -, -, small, evaluated⟩ := roundToPlaces_whole value lower upper 2
  have kept := (small (by decide)).2 (.inl (by decide))
  exact ⟨value, lower, upper, (evaluated _ _ converted reduced).2 kept⟩

/-- Without decimal places the last digit of `2 ^ 53` is lost. -/
theorem roundToPlaces_two_pow_fifty_three :
    (ofInt 9007199254740992).toRat? = some 9007199254740992 ∧
      ((ofInt 9007199254740992).roundToPlaces 0).toRat? = some 9007199254740990 ∧
      evaluate 0 "9007199254740992" = .ok (.integer 9007199254740990) := by
  decide +kernel

end Calculator
