import Calculator.Binary64.Order
import Calculator.Proofs.Binary64.Settled

/-!
# Rounding keeps the order

Scaling, cutting, rounding to a whole number and scaling back are monotone one by one, so that a larger
value that is scaled has no smaller rounding. A value too large to be scaled lies above all that are, and
it is kept. The whole numbers that the others are rounded to stay within the range, which its product
with the factor leaves, so that their quotients do not reach past it.
-/

namespace Calculator.Binary64

open Magnitude

variable {places : Nat} {s : Bool} {m n m' n' f w : Magnitude} {factor q r : Rat} {x y : Binary64}

/-- The position of the snapped whole number of a scaled magnitude, scaled back. -/
def scaledBack (factor q : Rat) : Nat :=
  nearestIndex (positionValue (nearestIndex (snappedNat q)) / factor)

theorem scaledBack_mono (nonneg : 0 ≤ factor) (le : q ≤ r) :
    scaledBack factor q ≤ scaledBack factor r := by
  have snapped : (snappedNat q : Rat) ≤ snappedNat r := Nat.cast_le.2 (snappedNat_mono le)
  exact nearestIndex_mono
    (div_le_div_of_nonneg_right (positionValue_nearestIndex_mono snapped) nonneg)

/-- The rounding of a magnitude that is scaled and whose cut does not overflow. -/
theorem roundToPlaces_of_kept (power : powerOfTen places = finite false f) (le : 1 ≤ f.toRat)
    (product : (finite s m).mul (powerOfTen places) = finite s w) (kept : w.toRat < cutBound) :
    (finite s m).roundToPlaces places = ofIndex s (scaledBack f.toRat w.toRat) := by
  have scaled : ((finite s m).mul (powerOfTen places)).isFinite = true := by
    rw [product]
    rfl
  have cut := isFinite_keepDigits_finite_iff (s := s).2 kept
  have whole := (isFinite_roundWhole (finite s w).keepDigits).trans cut
  rw [roundWhole_keepDigits cut] at whole
  have position := isFinite_roundMagnitude_iff.1 whole
  have snapped : roundMagnitude s (snappedNat w.toRat) = finite s ⟨_, position⟩ :=
    roundMagnitude_eq_finite_iff.2 ⟨rfl, rfl⟩
  rw [roundToPlaces_of_scaled scaled, product, roundWhole_keepDigits cut, snapped, power,
    finite_div _ _ le, toRat_eq]
  rfl

/-- A finite rounding of a magnitude is the magnitude itself, if it is too large to be scaled, and the
scaled magnitude taken back otherwise. -/
theorem index_of_roundToPlaces (power : powerOfTen places = finite false f) (le : 1 ≤ f.toRat)
    (rounded : (finite s m).roundToPlaces places = finite s m') :
    (0x7FF0000000000000 ≤ nearestIndex (m.toRat * f.toRat) ∧ m' = m) ∨
      ∃ w : Magnitude, w.index = nearestIndex (m.toRat * f.toRat) ∧ w.toRat < cutBound ∧
        m'.index = scaledBack f.toRat w.toRat := by
  have product : (finite s m).mul (powerOfTen places) = roundMagnitude s (m.toRat * f.toRat) := by
    rw [power, finite_mul]
  rcases Nat.lt_or_ge (nearestIndex (m.toRat * f.toRat)) 0x7FF0000000000000 with inside | past
  · have scaled : (finite s m).mul (powerOfTen places) = finite s ⟨_, inside⟩ :=
      product.trans (roundMagnitude_eq_finite_iff.2 ⟨rfl, rfl⟩)
    have kept : toRat ⟨_, inside⟩ < cutBound := by
      have finite : ((finite s m).roundToPlaces places).isFinite = true := by
        rw [rounded]
        rfl
      rw [roundToPlaces_of_scaled (by rw [scaled]; rfl), scaled,
        isFinite_div_of_atLeastOne _ (atLeastOne_powerOfTen places) (by rw [power]; rfl),
        isFinite_roundWhole, isFinite_keepDigits_finite_iff] at finite
      exact finite
    rw [roundToPlaces_of_kept power le scaled kept] at rounded
    exact .inr ⟨⟨_, inside⟩, rfl, kept, (roundMagnitude_eq_finite_iff.1 rounded).2.symm⟩
  · have overflow : ((finite s m).mul (powerOfTen places)).isFinite = false := by
      rw [product, ← Bool.not_eq_true, isFinite_roundMagnitude_iff]
      exact Nat.not_lt.2 past
    rw [roundToPlaces_of_overflow overflow, finite.injEq, and_iff_right rfl] at rounded
    exact .inl ⟨past, rounded.symm⟩

/-- The last magnitude that is cut to a finite value is snapped to a finite value. -/
theorem positionValue_snapped_lastKept :
    positionValue (nearestIndex (snappedNat lastKept.toRat)) ≤ largest.toRat := by
  decide +kernel

/-- What is scaled and taken back does not pass a magnitude that is too large to be scaled. -/
theorem scaledBack_le_of_overflow (le : 1 ≤ f.toRat) (kept : w.toRat < cutBound)
    (past : 0x7FF0000000000000 ≤ nearestIndex (n.toRat * f.toRat)) :
    scaledBack f.toRat w.toRat ≤ n.index := by
  have inside : positionValue (nearestIndex (snappedNat w.toRat)) ≤ largest.toRat := by
    have snapped : (snappedNat w.toRat : Rat) ≤ snappedNat lastKept.toRat :=
      Nat.cast_le.2 (snappedNat_mono (toRat_le_toRat.2 (lt_cutBound_iff.1 kept)))
    exact (positionValue_nearestIndex_mono snapped).trans positionValue_snapped_lastKept
  refine n.nearestIndex_le_of_le ((div_le_iff₀ (by linarith)).2 ?_)
  exact inside.trans (largest_lt_of_past past).le

/-- Of two magnitudes of one sign the larger one has no smaller rounding. -/
theorem toRat_le_of_roundToPlaces (le : m.toRat ≤ n.toRat)
    (hm : (finite s m).roundToPlaces places = finite s m')
    (hn : (finite s n).roundToPlaces places = finite s n') : m'.toRat ≤ n'.toRat := by
  rcases powerOfTen_cases places with overflow | ⟨f, power, one_le⟩
  · have kept (k : Magnitude) : (finite s k).roundToPlaces places = finite s k := by
      apply roundToPlaces_of_overflow
      rw [overflow, isFinite_mul_infinite]
    rw [kept, finite.injEq] at hm hn
    rwa [← hm.2, ← hn.2]
  · have nonneg : 0 ≤ f.toRat := f.toRat_nonneg
    have products := nearestIndex_mono (mul_le_mul_of_nonneg_right le nonneg)
    rw [toRat_le_toRat]
    rcases index_of_roundToPlaces power one_le hm with ⟨past, rfl⟩ | ⟨w, hw, kept, back⟩
    · rcases index_of_roundToPlaces power one_le hn with ⟨-, rfl⟩ | ⟨v, hv, -, -⟩
      · exact toRat_le_toRat.1 le
      · exact absurd (past.trans products) (Nat.not_le.2 (hv ▸ v.index_lt))
    · rw [back]
      rcases index_of_roundToPlaces power one_le hn with ⟨past, rfl⟩ | ⟨v, hv, -, back'⟩
      · exact scaledBack_le_of_overflow one_le kept past
      · rw [back']
        rw [← hw, ← hv] at products
        exact scaledBack_mono nonneg (toRat_le_toRat.2 products)

theorem roundToPlaces_infinite (places : Nat) (s : Bool) :
    (infinite s).roundToPlaces places = infinite s :=
  roundToPlaces_of_overflow (isFinite_infinite_mul s _)

/-- Rounding keeps the sign of a number. -/
theorem roundToPlaces_finite_cases (places : Nat) (s : Bool) (m : Magnitude) :
    (∃ n, (finite s m).roundToPlaces places = finite s n) ∨
      (finite s m).roundToPlaces places = infinite s := by
  by_cases scaled : ((finite s m).mul (powerOfTen places)).isFinite = true
  · obtain ⟨t, k, f, w, same, power, le, product⟩ := exists_of_isFinite_mul scaled
    cases same
    rw [roundToPlaces_of_scaled scaled, product, power]
    rcases keepDigits_cases s w with ⟨cut, kept⟩ | kept
    · obtain ⟨whole, rounded⟩ : ∃ whole, (finite s cut).roundWhole = finite s whole := by
        have position := isFinite_roundMagnitude_iff.1 (isFinite_roundWhole (finite s cut))
        exact ⟨⟨_, position⟩, roundMagnitude_eq_finite_iff.2 ⟨rfl, rfl⟩⟩
      rw [kept, rounded, finite_div _ _ le]
      exact roundMagnitude_cases s _
    · rw [kept]
      exact .inr (congrArg infinite (Bool.bne_false s))
  · exact .inl ⟨m, roundToPlaces_of_overflow (Bool.eq_false_iff.2 scaled)⟩

theorem roundToPlaces_ne_nan (number : x ≠ nan) : x.roundToPlaces places ≠ nan := by
  cases x with
  | nan => exact absurd rfl number
  | infinite s =>
    rw [roundToPlaces_infinite]
    nofun
  | finite s m =>
    rcases roundToPlaces_finite_cases places s m with ⟨n, rounded⟩ | rounded
    · rw [rounded]
      nofun
    · rw [rounded]
      nofun

/-- The value is finite and its rounding is not. -/
def BecomesInfinite (places : Nat) (x : Binary64) : Prop :=
  x.isFinite = true ∧ ∃ s, x.roundToPlaces places = infinite s

theorem exists_roundToPlaces_eq_finite (kept : ¬ (finite s m).BecomesInfinite places) :
    ∃ n, (finite s m).roundToPlaces places = finite s n :=
  (roundToPlaces_finite_cases places s m).resolve_right fun rounded => kept ⟨rfl, s, rounded⟩

/-- The order of two numbers is kept, also where one of them is scaled and the other is not. -/
theorem roundToPlaces_finite_mono {s t : Bool} (le : finite s m ≤ finite t n)
    (hm : (finite s m).roundToPlaces places = finite s m')
    (hn : (finite t n).roundToPlaces places = finite t n') : finite s m' ≤ finite t n' := by
  rw [le_iff_of_toRat? rfl rfl] at le ⊢
  cases s with
  | false =>
    cases t with
    | false => exact toRat_le_of_roundToPlaces le hm hn
    | true =>
      -- A positive number is not below a negative one, and zeros are kept.
      have zero (k : Magnitude) (nonpos : k.toRat ≤ 0) : k = .zero :=
        toRat_injective ((le_antisymm nonpos k.toRat_nonneg).trans zero_toRat.symm)
      have opposite : m.toRat ≤ -n.toRat := le
      have nonneg := m.toRat_nonneg
      have nonneg' := n.toRat_nonneg
      obtain rfl := zero m (by linarith)
      obtain rfl := zero n (by linarith)
      rw [(settled_zero places _).roundToPlaces_eq, finite.injEq] at hm hn
      rw [← hm.2, ← hn.2, zero_toRat, signed_zero, signed_zero]
  | true =>
    cases t with
    | false =>
      show -m'.toRat ≤ n'.toRat
      have nonneg := m'.toRat_nonneg
      have nonneg' := n'.toRat_nonneg
      linarith
    | true => exact neg_le_neg (toRat_le_of_roundToPlaces (neg_le_neg_iff.1 le) hn hm)

/-- **Order.** Rounding to decimal places keeps the order of any two values that it does not make
infinite. -/
theorem roundToPlaces_mono (le : x ≤ y) (hx : ¬ x.BecomesInfinite places)
    (hy : ¬ y.BecomesInfinite places) : x.roundToPlaces places ≤ y.roundToPlaces places := by
  cases x with
  | nan => cases le
  | infinite s =>
    cases s with
    | true =>
      rw [roundToPlaces_infinite, infinite_true_le_iff]
      exact roundToPlaces_ne_nan (infinite_true_le_iff.1 le)
    | false =>
      obtain rfl : y = infinite false := by
        cases y with
        | nan => cases le
        | infinite t => cases t <;> trivial
        | finite t n => cases le
      exact le_self_iff.2 (roundToPlaces_ne_nan nofun)
  | finite s m =>
    cases y with
    | nan => cases le
    | infinite t =>
      cases t with
      | true => cases le
      | false =>
        rw [roundToPlaces_infinite, le_infinite_false_iff]
        exact roundToPlaces_ne_nan nofun
    | finite t n =>
      obtain ⟨m', hm⟩ := exists_roundToPlaces_eq_finite hx
      obtain ⟨n', hn⟩ := exists_roundToPlaces_eq_finite hy
      rw [hm, hn]
      exact roundToPlaces_finite_mono le hm hn

/-- Four positions apart at two places, the smaller value is scaled and the larger one is not. -/
theorem roundToPlaces_mono_of_last_scaled :
    ((finite false ⟨0x7F847AE147AE1477, by decide⟩).mul (powerOfTen 2)).isFinite = true ∧
      ((finite false ⟨0x7F847AE147AE147B, by decide⟩).mul (powerOfTen 2)).isFinite = false ∧
      finite false ⟨0x7F847AE147AE1477, by decide⟩ ≤ finite false ⟨0x7F847AE147AE147B, by decide⟩ ∧
      ¬ (finite false ⟨0x7F847AE147AE1477, by decide⟩).BecomesInfinite 2 ∧
      ¬ (finite false ⟨0x7F847AE147AE147B, by decide⟩).BecomesInfinite 2 ∧
      finite false ⟨0x7F847AE147AE1468, by decide⟩ ≤
        (finite false ⟨0x7F847AE147AE147B, by decide⟩).roundToPlaces 2 := by
  have scaled : (finite false ⟨0x7F847AE147AE1477, by decide⟩).roundToPlaces 2 =
      finite false ⟨0x7F847AE147AE1468, by decide⟩ := by decide +kernel
  have unscaled : ((finite false ⟨0x7F847AE147AE147B, by decide⟩).mul (powerOfTen 2)).isFinite =
      false := by decide +kernel
  have le : finite false ⟨0x7F847AE147AE1477, by decide⟩ ≤
      finite false ⟨0x7F847AE147AE147B, by decide⟩ := by decide +kernel
  have hx : ¬ (finite false ⟨0x7F847AE147AE1477, by decide⟩).BecomesInfinite 2 := by
    rintro ⟨-, s, infinite⟩
    cases scaled.symm.trans infinite
  have hy : ¬ (finite false ⟨0x7F847AE147AE147B, by decide⟩).BecomesInfinite 2 := by
    rintro ⟨-, s, infinite⟩
    cases (roundToPlaces_of_overflow unscaled).symm.trans infinite
  have ordered := roundToPlaces_mono le hx hy
  rw [scaled] at ordered
  exact ⟨by decide +kernel, unscaled, le, hx, hy, ordered⟩

end Calculator.Binary64
