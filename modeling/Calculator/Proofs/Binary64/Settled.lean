import Calculator.Proofs.Binary64.RelativeError
import Calculator.Proofs.Binary64.Snapping

/-!
# Rounding twice

A rounded value that was scaled is a whole number of few digits divided by the factor. Scaled again it
is off from these digits by three roundings at most, which is too little to lose them, so that the cut
gives them back and the same quotient follows. Only where the quotient is subnormal its rounding can be
off by more, and then the whole number is at most four, to which everything close is snapped. A value
that is too large to be scaled is not changed in the first place, and this includes a rounded value whose
product with the factor overflows.
-/

namespace Calculator.Binary64

open Magnitude

variable {places : Nat} {x : Binary64} {s : Bool} {m f y w : Magnitude} {k : Nat}

/-- The value that a whole number is scaled back to, scaled again. -/
theorem roundWhole_keepDigits_of_normal (few : HasKeptDigits (finite s m))
    (whole : Whole (finite s m)) (one_le : 1 ≤ m.toRat) (le : 1 ≤ f.toRat)
    (normal : (2 : Rat) ^ (-1022 : Int) ≤ m.toRat / f.toRat)
    (back : nearestIndex (m.toRat / f.toRat) = y.index)
    (again : nearestIndex (y.toRat * f.toRat) = w.index) :
    (finite s w).keepDigits.roundWhole = finite s m := by
  obtain ⟨t, d, digits, made⟩ := few
  obtain ⟨rfl, position⟩ := roundMagnitude_eq_finite_iff.1 made.symm
  have pos : 0 < f.toRat := by linarith
  have read : positionValue (nearestIndex d.toRat) = m.toRat := by rw [position, toRat_eq]
  have scaledBack : positionValue (nearestIndex (m.toRat / f.toRat)) = y.toRat := by
    rw [back, toRat_eq]
  have scaledAgain : positionValue (nearestIndex (y.toRat * f.toRat)) = w.toRat := by
    rw [again, toRat_eq]
  have typed : (2 : Rat) ^ (-1022 : Int) ≤ d.toRat := normal_of_one_le (by rwa [read])
  have first : Within 1 d.toRat m.toRat := read ▸ (Within.refl d.toRat).round typed
  have second : Within 2 (d.toRat * f.toRat⁻¹) y.toRat := by
    rw [div_eq_mul_inv] at normal scaledBack
    exact scaledBack ▸ (first.mul (inv_nonneg.2 pos.le)).round normal
  have third : Within 3 d.toRat w.toRat := by
    have again : (2 : Rat) ^ (-1022 : Int) ≤ y.toRat * f.toRat := by
      have kept := normal_positionValue_nearestIndex normal
      rw [scaledBack] at kept
      exact kept.trans (le_mul_of_one_le_right y.toRat_nonneg le)
    have scaled := second.mul pos.le
    rw [inv_mul_cancel_right₀ pos.ne'] at scaled
    exact scaledAgain ▸ scaled.round again
  have pos' : 0 < d.toRat := lt_of_lt_of_le (zpow_pos (by norm_num) _) typed
  have cut := Decimal.toRat_significant_of_near (by decide) digits pos'
    (third.abs_sub_le (le_refl 3) pos'.le)
  rw [keepDigits, cut, ← made, whole.roundWhole_eq]

/-- A quotient below the full coefficients comes from a whole number up to four, and scaling it again
leads close to that. -/
theorem roundWhole_keepDigits_of_subnormal (value : m.toRat = k) (le : 1 ≤ f.toRat)
    (subnormal : m.toRat / f.toRat < (2 : Rat) ^ (-1022 : Int))
    (back : nearestIndex (m.toRat / f.toRat) = y.index)
    (again : nearestIndex (y.toRat * f.toRat) = w.index) :
    (finite s w).keepDigits.roundWhole = finite s m := by
  have pos : 0 < f.toRat := by linarith
  have scale (e : Int) : (2 : Rat) ^ e * f.toRat ≤ (2 : Rat) ^ (e + 1024) := by
    rw [zpow_add₀ (by norm_num)]
    exact mul_le_mul_of_nonneg_left (toRat_le_two_zpow f) (zpow_pos (by norm_num) _).le
  have small : m.toRat < 4 := by
    have four : (2 : Rat) ^ (-1022 + 1024 : Int) = 4 := by norm_num
    calc m.toRat < (2 : Rat) ^ (-1022 : Int) * f.toRat := (div_lt_iff₀ pos).1 subnormal
      _ ≤ 4 := (scale (-1022)).trans_eq four
  have few : k ≤ 4 := by
    rw [value] at small
    exact_mod_cast small.le
  have near : |w.toRat - k| ≤ 1 / 4 := by
    have first := abs_positionValue_nearestIndex_sub_le_add (div_nonneg m.toRat_nonneg pos.le)
    have second := abs_positionValue_nearestIndex_sub_le_add (mul_nonneg y.toRat_nonneg pos.le)
    rw [back, ← toRat_eq] at first
    rw [again, ← toRat_eq] at second
    have scaled : |y.toRat * f.toRat - m.toRat| ≤
        m.toRat / 2 ^ 53 + (2 : Rat) ^ (-1075 : Int) * f.toRat := by
      have product := mul_le_mul_of_nonneg_right first pos.le
      rwa [← abs_of_pos pos, ← abs_mul, abs_of_pos pos, sub_mul, div_mul_cancel₀ _ pos.ne', add_mul,
        div_mul_eq_mul_div, div_mul_cancel₀ _ pos.ne'] at product
    have gap : (2 : Rat) ^ (-1075 + 1024 : Int) ≤ 1 / 32 := by norm_num
    have bound := (scale (-1075)).trans gap
    have least := le_mul_of_one_le_right (zpow_pos (by norm_num : (0 : Rat) < 2) (-1075)).le le
    generalize (2 : Rat) ^ (-1075 : Int) = u at scaled second bound least
    rw [← value]
    rw [abs_le] at scaled second ⊢
    constructor <;> linarith
  have kept : (finite s w).keepDigits.isFinite = true := by
    have upper := (abs_le.1 near).2
    have cast : (k : Rat) ≤ 4 := by exact_mod_cast few
    rw [isFinite_keepDigits_finite_iff]
    exact lt_cutBound_of_le (by linarith)
  rw [roundWhole_keepDigits kept, snappedNat_eq_of_near few near, ← value, roundMagnitude_toRat]

/-- A whole number with few digits comes back when it is scaled back and scaled again. -/
theorem roundWhole_keepDigits_rescaled (few : HasKeptDigits (finite s m))
    (whole : Whole (finite s m)) (le : 1 ≤ f.toRat)
    (back : nearestIndex (m.toRat / f.toRat) = y.index)
    (again : nearestIndex (y.toRat * f.toRat) = w.index) :
    (finite s w).keepDigits.roundWhole = finite s m := by
  obtain ⟨k, value⟩ : ∃ k : Nat, m.toRat = k := by
    cases whole with
    | finite _ value => exact ⟨_, value⟩
  rcases le_or_gt ((2 : Rat) ^ (-1022 : Int)) (m.toRat / f.toRat) with normal | subnormal
  · have one_le : 1 ≤ m.toRat := by
      have pos : 0 < m.toRat := by
        refine (div_pos_iff_of_pos_right (by linarith)).1 (lt_of_lt_of_le ?_ normal)
        exact zpow_pos (by norm_num) _
      rw [value] at pos ⊢
      exact_mod_cast pos
    exact roundWhole_keepDigits_of_normal few whole one_le le normal back again
  · exact roundWhole_keepDigits_of_subnormal value le subnormal back again

/-- What rounding to decimal places leaves: a value too large to be scaled, or a whole number of few
digits scaled back. -/
inductive Settled (places : Nat) : Binary64 → Prop where
  | unscaled {x : Binary64} (overflow : (x.mul (powerOfTen places)).isFinite = false) :
      Settled places x
  | quotient {s : Bool} {m f : Magnitude} (factor : powerOfTen places = finite false f)
      (le : 1 ≤ f.toRat) (few : HasKeptDigits (finite s m)) (whole : Whole (finite s m)) :
      Settled places ((finite s m).div (finite false f))

theorem settled_roundToPlaces (places : Nat) (x : Binary64) :
    Settled places (x.roundToPlaces places) := by
  by_cases scaled : (x.mul (powerOfTen places)).isFinite = true
  · obtain ⟨s, m, f, w, rfl, factor, le, product⟩ := exists_of_isFinite_mul scaled
    rw [roundToPlaces_of_scaled scaled, product, factor]
    rcases keepDigits_cases s w with ⟨t, cut⟩ | cut
    · have few := hasKeptDigits_keepDigits s w
      rw [cut] at few ⊢
      obtain ⟨n, whole⟩ : ∃ n, (finite s t).roundWhole = finite s n := by
        have position := isFinite_roundMagnitude_iff.1 (isFinite_roundWhole (finite s t))
        exact ⟨⟨_, position⟩, roundMagnitude_eq_finite_iff.2 ⟨rfl, rfl⟩⟩
      have few' := few.roundWhole
      have whole' := whole_roundWhole (finite s t)
      rw [whole] at few' whole' ⊢
      exact .quotient factor le few' whole'
    · rw [cut]
      exact .unscaled (isFinite_infinite_mul _ _)
  · have overflow := Bool.eq_false_iff.2 scaled
    rw [roundToPlaces_of_overflow overflow]
    exact .unscaled overflow

theorem settled_zero (places : Nat) (s : Bool) : Settled places (finite s .zero) := by
  rcases powerOfTen_cases places with overflow | ⟨f, factor, le⟩
  · refine .unscaled ?_
    rw [overflow, isFinite_mul_infinite]
  · have zero : Magnitude.zero.toRat = (0 : Nat) := Magnitude.zero_toRat
    rw [← zero_div_of_one_le le]
    exact .quotient factor le (hasKeptDigits_zero s) (.finite s zero)

/-- Rounding changes nothing that it leaves. -/
theorem Settled.roundToPlaces_eq (settled : Settled places x) : x.roundToPlaces places = x := by
  cases settled with
  | unscaled overflow => exact roundToPlaces_of_overflow overflow
  | @quotient s m f factor le few whole =>
    by_cases scaled : (((finite s m).div (finite false f)).mul (powerOfTen places)).isFinite = true
    · rw [roundToPlaces_of_scaled scaled]
      obtain ⟨t, y, g, w, back, factor', -, again⟩ := exists_of_isFinite_mul scaled
      cases factor'.symm.trans factor
      rw [again]
      rw [back, factor, finite_mul] at again
      rw [finite_div _ _ le] at back
      obtain ⟨rfl, back'⟩ := roundMagnitude_eq_finite_iff.1 back
      have again' := (roundMagnitude_eq_finite_iff.1 again).2
      rw [roundWhole_keepDigits_rescaled few whole le back' again', factor]
    · exact roundToPlaces_of_overflow (Bool.eq_false_iff.2 scaled)

/-- **Rounding twice.** A value that was rounded to decimal places is not changed by rounding it to as
many places again. -/
theorem roundToPlaces_roundToPlaces (places : Nat) (x : Binary64) :
    (x.roundToPlaces places).roundToPlaces places = x.roundToPlaces places :=
  (settled_roundToPlaces places x).roundToPlaces_eq

end Calculator.Binary64
