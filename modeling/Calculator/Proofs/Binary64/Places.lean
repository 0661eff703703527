import Calculator.Proofs.Binary64.Finite
import Calculator.Proofs.Decimal.Significant

/-!
# Rounding at the end of the range

A value is scaled, cut to fifteen digits, rounded and scaled back. Only the scaling is checked for an
overflow, but the cut can be larger than the scaled value, and the four last magnitudes are cut to
`1.79769313486232e308`, which is past all of them. The bound between these and the rest follows from
one computation at either side of it, since both the cut and its rounding are monotone.
-/

namespace Calculator.Binary64

open Magnitude

theorem roundToPlaces_of_overflow {places : Nat} {x : Binary64}
    (overflow : (x.mul (powerOfTen places)).isFinite = false) : x.roundToPlaces places = x := by
  unfold roundToPlaces
  dsimp only
  rw [overflow, Bool.and_false, if_neg Bool.false_ne_true]

theorem roundToPlaces_of_scaled {places : Nat} {x : Binary64}
    (scaled : (x.mul (powerOfTen places)).isFinite = true) :
    x.roundToPlaces places =
      (x.mul (powerOfTen places)).keepDigits.roundWhole.div (powerOfTen places) := by
  unfold roundToPlaces
  dsimp only
  rw [(isFinite_of_isFinite_mul scaled).2, scaled, Bool.and_self, if_pos rfl]

/-- The middle between the last decimal of `keptDigits` digits that is rounded to a magnitude and the
first that is not. -/
def cutBound : Rat := 1797693134862315 * 10 ^ 293

/-- Everything up to `2 ^ 53` lies far below the bound. -/
theorem lt_cutBound_of_le {q : Rat} (small : q ≤ 2 ^ 53) : q < cutBound := by
  have bounded : (2 : Rat) ^ 53 < cutBound := by decide +kernel
  exact small.trans_lt bounded

/-- The last magnitude below the bound. -/
def lastKept : Magnitude := ⟨0x7FEFFFFFFFFFFFFB, by decide⟩

theorem lt_cutBound_iff {m : Magnitude} : m.toRat < cutBound ↔ m.index ≤ lastKept.index := by
  constructor
  · intro below
    have beyond : cutBound ≤ toRat ⟨0x7FEFFFFFFFFFFFFC, by decide⟩ := by decide +kernel
    have position := mt toRat_le_toRat.2 (not_le.2 (lt_of_lt_of_le below beyond))
    exact Nat.le_of_lt_succ (Nat.lt_of_not_le position)
  · intro position
    have bounded : lastKept.toRat < cutBound := by decide +kernel
    exact lt_of_le_of_lt (toRat_le_toRat.2 position) bounded

/-- The cut of a magnitude is rounded to a finite value exactly below the bound. -/
theorem isFinite_keepDigits_finite_iff {s : Bool} {m : Magnitude} :
    (finite s m).keepDigits.isFinite = true ↔ m.toRat < cutBound := by
  have cut_mono : ∀ {q r : Rat}, q ≤ r →
      nearestIndex (Decimal.significant keptDigits q).toRat ≤
        nearestIndex (Decimal.significant keptDigits r).toRat :=
    fun le => nearestIndex_mono (Decimal.toRat_significant_mono (by decide) le)
  rw [keepDigits, isFinite_roundMagnitude_iff]
  constructor
  · intro kept
    by_contra reached
    have past : 0x7FF0000000000000 ≤
        nearestIndex (Decimal.significant keptDigits cutBound).toRat := by decide +kernel
    have larger := cut_mono (not_lt.1 reached)
    omega
  · intro below
    have kept : nearestIndex (Decimal.significant keptDigits lastKept.toRat).toRat <
        0x7FF0000000000000 := by decide +kernel
    have smaller := cut_mono (toRat_le_toRat.2 (lt_cutBound_iff.1 below))
    omega

/-- Scaling the value does not overflow, but cutting the scaled value does. -/
def CutOverflows (places : Nat) (x : Binary64) : Prop :=
  ∃ q, (x.mul (powerOfTen places)).toRat? = some q ∧ cutBound ≤ |q|

theorem isFinite_keepDigits_iff {x : Binary64} (finite : x.isFinite = true) :
    x.keepDigits.isFinite = true ↔ ¬ ∃ q, x.toRat? = some q ∧ cutBound ≤ |q| := by
  cases x with
  | nan => cases finite
  | infinite s => cases finite
  | finite s m =>
    rw [isFinite_keepDigits_finite_iff]
    simp [toRat?, abs_signed m.toRat_nonneg]

/-- Rounding makes a finite value infinite exactly if the cut of the scaled value overflows. -/
theorem isFinite_roundToPlaces_iff {places : Nat} {x : Binary64} :
    (x.roundToPlaces places).isFinite = true ↔ x.isFinite = true ∧ ¬ x.CutOverflows places := by
  unfold CutOverflows
  by_cases scaled : (x.mul (powerOfTen places)).isFinite = true
  · obtain ⟨value, factor⟩ := isFinite_of_isFinite_mul scaled
    rw [roundToPlaces_of_scaled scaled,
      isFinite_div_of_atLeastOne _ (atLeastOne_powerOfTen places) factor, isFinite_roundWhole,
      isFinite_keepDigits_iff scaled, and_iff_right value]
  · have overflow := Bool.eq_false_iff.2 scaled
    rw [roundToPlaces_of_overflow overflow, toRat?_eq_none overflow]
    simp

end Calculator.Binary64
