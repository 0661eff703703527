import Calculator.Proofs.Binary64.WholePlaces

/-!
# Snapping a scaled value to a whole number

The cut of a scaled value, its reading and the rounding to a whole number are one monotone function of
the value. The whole number has no more digits than the cut: below `10 ^ 15` every whole number has as
few, and from there on the cut is whole already.
-/

namespace Calculator.Binary64

open Magnitude

variable {s : Bool} {m : Magnitude} {n : Nat} {q r : Rat}

/-- The whole number to which a scaled magnitude is rounded after its cut. -/
def snappedNat (q : Rat) : Nat :=
  nearestNat .upward (positionValue (nearestIndex (Decimal.significant keptDigits q).toRat))

/-- A larger magnitude is not snapped to a smaller whole number. -/
theorem snappedNat_mono (le : q ≤ r) : snappedNat q ≤ snappedNat r :=
  nearestNat_mono .upward (positionValue_nearestIndex_mono
    (Decimal.toRat_significant_mono (by decide) le))

theorem roundWhole_keepDigits (kept : (finite s m).keepDigits.isFinite = true) :
    (finite s m).keepDigits.roundWhole = roundMagnitude s (snappedNat m.toRat) := by
  rcases keepDigits_cases s m with ⟨t, cut⟩ | cut
  · have position := (roundMagnitude_eq_finite_iff.1 cut).2
    rw [cut, roundWhole, snappedNat, position, toRat_eq]
  · rw [cut] at kept
    cases kept

/-- The decimal digits of a whole number up to `10 ^ 15` are kept. -/
theorem hasKeptDigits_natCast (s : Bool) (small : n ≤ 10 ^ keptDigits) :
    HasKeptDigits (roundMagnitude s n) := by
  rcases Nat.lt_or_eq_of_le small with inside | rfl
  · exact ⟨s, ⟨n, 0⟩, inside, by simp [Decimal.toRat]⟩
  · refine ⟨s, ⟨1, keptDigits⟩, by decide, ?_⟩
    simp [Decimal.toRat]

/-- The cut has the digits that it keeps. -/
theorem hasKeptDigits_keepDigits (s : Bool) (m : Magnitude) :
    HasKeptDigits (finite s m).keepDigits := by
  obtain ⟨d, digits, value⟩ := Decimal.exists_digits_lt (by decide : 0 < keptDigits) m.toRat
  exact ⟨s, d, digits, by rw [value, keepDigits]⟩

/-- A decimal of few digits is a multiple of ten from `10 ^ 15` on. -/
theorem exponent_pos_of_large {d : Decimal} (digits : d.digits < 10 ^ keptDigits)
    (large : (10 : Rat) ^ keptDigits ≤ d.toRat) : 0 < d.exponent := by
  by_contra nonpos
  have place : (10 : Rat) ^ d.exponent ≤ 1 := zpow_le_one_of_nonpos₀ (by norm_num) (not_lt.1 nonpos)
  have few : (d.digits : Rat) < (10 : Rat) ^ keptDigits := by exact_mod_cast digits
  have bound : d.toRat ≤ d.digits := mul_le_of_le_one_right (Nat.cast_nonneg _) place
  linarith

/-- A value with few digits past `10 ^ 15` is nearest to a multiple of ten. -/
theorem HasKeptDigits.exists_exponent_pos (few : HasKeptDigits (finite s m))
    (large : ((10 ^ keptDigits : Nat) : Rat) < m.toRat) :
    ∃ d : Decimal, d.digits < 10 ^ keptDigits ∧ 0 < d.exponent ∧
      roundMagnitude s d.toRat = finite s m := by
  obtain ⟨t, d, digits, made⟩ := few
  obtain ⟨rfl, position⟩ := roundMagnitude_eq_finite_iff.1 made.symm
  refine ⟨d, digits, exponent_pos_of_large digits ?_, made.symm⟩
  by_contra below
  obtain ⟨last, -, value⟩ :=
    exists_roundMagnitude_eq_finite false (by decide : 10 ^ keptDigits ≤ 2 ^ 53)
  have bound := last.nearestIndex_le_of_le (q := d.toRat) (by
    rw [value]
    push_cast
    exact (not_le.1 below).le)
  rw [position, ← toRat_le_toRat, value] at bound
  linarith

/-- The nearest whole number of a value with few digits has few digits: below `10 ^ 15` all whole numbers
have, and from there on the value is whole. -/
theorem HasKeptDigits.roundWhole (few : HasKeptDigits (finite s m)) :
    HasKeptDigits (finite s m).roundWhole := by
  rcases le_or_gt m.toRat ((10 ^ keptDigits : Nat) : Rat) with small | large
  · exact hasKeptDigits_natCast s (nearestNat_le_of_le .upward small)
  · obtain ⟨d, -, exponent, made⟩ := few.exists_exponent_pos large
    obtain ⟨k, natural⟩ := Decimal.exists_natCast exponent.le
    have whole : Whole (finite s m) := by
      rw [← made, natural]
      exact whole_roundMagnitude s k
    rwa [whole.roundWhole_eq]

theorem whole_roundWhole (x : Binary64) : Whole x.roundWhole := by
  cases x with
  | nan => exact .nan
  | infinite s => exact .infinite s
  | finite s m => exact whole_roundMagnitude s _

/-- Near a small whole number everything is snapped to it. -/
theorem snappedNat_eq_of_near (small : n ≤ 4) (near : |q - n| ≤ 1 / 4) : snappedNat q = n := by
  have ends : ∀ j : Fin 5, snappedNat ((j : Nat) - 1 / 4) = (j : Nat) ∧
      snappedNat ((j : Nat) + 1 / 4) = (j : Nat) := by
    decide +kernel
  obtain ⟨first, last⟩ := ends ⟨n, by omega⟩
  dsimp only at first last
  obtain ⟨lower, upper⟩ := abs_le.1 near
  apply le_antisymm
  · exact (snappedNat_mono (by linarith)).trans_eq last
  · exact first.symm.trans_le (snappedNat_mono (by linarith))

end Calculator.Binary64
