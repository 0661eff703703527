import Calculator.Proofs.Binary64.Places
import Calculator.Proofs.Binary64.Whole
import Calculator.Proofs.Decimal.Recovery

/-!
# Rounding whole values to decimal places

Of the three steps between scaling a whole value and scaling it back only the cut can change it, since
the cut is whole already. Where the scaled value is exact, the value comes back exactly if the cut is the
scaled value, and that holds for the values nearest to a decimal of few digits. As long as the scaled
value is at most `2 ^ 53` it has sixteen digits at most, and the cut can only change the last of them.
-/

namespace Calculator.Binary64

open Magnitude

/-- The cut of the scaled value, scaled back, is the value. -/
def Restored (places : Nat) (x : Binary64) : Prop :=
  ((x.mul (powerOfTen places)).keepDigits.div (powerOfTen places)).toRat? = x.toRat?

/-- The scaled value is the exact product. -/
def ScalesExactly (places : Nat) (x : Binary64) : Prop :=
  ∃ q f, x.toRat? = some q ∧ (powerOfTen places).toRat? = some f ∧
    (x.mul (powerOfTen places)).toRat? = some (q * f)

/-- The value is nearest to a decimal of at most `keptDigits` digits. -/
def HasKeptDigits (x : Binary64) : Prop :=
  ∃ s d, Decimal.digits d < 10 ^ keptDigits ∧ x = roundMagnitude s d.toRat

variable {places : Nat} {x : Binary64} {s : Bool} {m : Magnitude} {n : Int}

/-- A value too large to be scaled is kept. -/
theorem toRat?_roundToPlaces_of_overflow (value : x.toRat? = some (n : Rat))
    (overflow : (x.mul (powerOfTen places)).isFinite = false) :
    (x.roundToPlaces places).toRat? = some (n : Rat) := by
  rw [roundToPlaces_of_overflow overflow, value]

theorem isFinite_of_isFinite_keepDigits (kept : x.keepDigits.isFinite = true) :
    x.isFinite = true := by
  cases x with
  | nan => cases kept
  | infinite s => cases kept
  | finite s m => rfl

/-- A whole value that is scaled is kept if the cut does not matter: the cut is whole already, so that
rounding it to a whole number changes nothing. -/
theorem toRat?_roundToPlaces_iff_restored (value : x.toRat? = some (n : Rat))
    (kept : (x.mul (powerOfTen places)).keepDigits.isFinite = true) :
    (x.roundToPlaces places).toRat? = some (n : Rat) ↔ Restored places x := by
  have scaled := isFinite_of_isFinite_keepDigits kept
  have whole : Whole (x.mul (powerOfTen places)).keepDigits :=
    ((whole_of_toRat? value).mul (whole_powerOfTen places)).keepDigits
  rw [roundToPlaces_of_scaled scaled, whole.roundWhole_eq, Restored, value]

/-- From one on, a value is its own cut exactly if it has no more digits. -/
theorem keepDigits_eq_self_iff (le : 1 ≤ m.toRat) :
    (finite s m).keepDigits = finite s m ↔ HasKeptDigits (finite s m) := by
  constructor
  · intro kept
    have nonempty : 0 < keptDigits := by decide
    obtain ⟨d, digits, value⟩ := Decimal.exists_digits_lt nonempty m.toRat
    refine ⟨s, d, digits, ?_⟩
    rw [value]
    exact kept.symm
  · rintro ⟨t, d, digits, made⟩
    obtain ⟨rfl, position⟩ := roundMagnitude_eq_finite_iff.1 made.symm
    have read : positionValue (nearestIndex d.toRat) = m.toRat := by rw [position, toRat_eq]
    have few : keptDigits ≤ 15 := by decide
    have cut := Decimal.toRat_significant_nearest few digits (normal_of_one_le (le.trans_eq read.symm))
    rw [read] at cut
    rw [keepDigits, cut, made]

theorem keepDigits_cases (s : Bool) (m : Magnitude) :
    (∃ t, (finite s m).keepDigits = finite s t) ∨ (finite s m).keepDigits = infinite s :=
  roundMagnitude_cases s _

/-- The parts of a finite scaled value. -/
theorem exists_of_isFinite_mul (scaled : (x.mul (powerOfTen places)).isFinite = true) :
    ∃ s m f w, x = finite s m ∧ powerOfTen places = finite false f ∧ 1 ≤ toRat f ∧
      x.mul (powerOfTen places) = finite s w := by
  obtain ⟨value, factor⟩ := isFinite_of_isFinite_mul scaled
  rcases powerOfTen_cases places with overflow | ⟨f, power, le⟩
  · rw [overflow] at factor
    cases factor
  · cases x with
    | nan => cases value
    | infinite s => cases value
    | finite s m =>
      rw [power, finite_mul] at scaled ⊢
      have position := isFinite_roundMagnitude_iff.1 scaled
      exact ⟨s, m, f, ⟨_, position⟩, rfl, rfl, le, roundMagnitude_eq_finite_iff.2 ⟨rfl, rfl⟩⟩

/-- A value that is scaled to an exact product comes back exactly if the cut keeps the product. -/
theorem restored_iff_keepDigits_eq {f w : Magnitude} (factor : powerOfTen places = finite false f)
    (le : 1 ≤ f.toRat) (scaled : (finite s m).mul (powerOfTen places) = finite s w)
    (product : w.toRat = m.toRat * f.toRat) (one_le : 1 ≤ m.toRat) :
    Restored places (finite s m) ↔ (finite s w).keepDigits = finite s w := by
  have pos : 0 < f.toRat := by linarith
  have normal : positionBinade (m.index - 1) ≠ 0 := by
    rw [← one_toRat, toRat_le_toRat, one] at one_le
    dsimp only at one_le
    rw [positionBinade]
    omega
  unfold Restored
  rw [scaled, factor]
  constructor
  · intro restored
    -- Any other cut would be divided back to another value.
    rcases keepDigits_cases s w with ⟨t, cut⟩ | cut
    · rw [cut, finite_div _ _ le, toRat?_roundMagnitude_eq_iff, toRat_eq] at restored
      rw [toRat_eq, toRat_eq] at product
      have position := eq_of_nearestIndex_div_eq pos normal product restored
      rw [cut, finite.injEq, and_iff_right rfl, Magnitude.mk.injEq]
      exact position
    · rw [cut] at restored
      cases restored
  · intro kept
    rw [kept, finite_div _ _ le, product, mul_div_cancel_right₀ _ pos.ne', roundMagnitude_toRat]

theorem eq_zero_of_toRat? (value : x.toRat? = some ((0 : Int) : Rat)) : ∃ s, x = finite s .zero := by
  cases x with
  | nan => cases value
  | infinite s => cases value
  | finite s m =>
    have zero : m.toRat = Magnitude.zero.toRat := by
      rw [toRat_eq_natAbs value, Magnitude.zero_toRat, Int.natAbs_zero, Nat.cast_zero]
    exact ⟨s, by rw [toRat_injective zero]⟩

theorem zero_mul_powerOfTen (scaled : ((finite s .zero).mul (powerOfTen places)).isFinite = true) :
    (finite s .zero).mul (powerOfTen places) = finite s .zero := by
  rcases powerOfTen_cases places with overflow | ⟨f, factor, le⟩
  · rw [overflow] at scaled
    cases scaled
  · rw [factor, finite_mul, zero_toRat, zero_mul, roundMagnitude_zero]

theorem zero_div_of_one_le {f : Magnitude} (le : 1 ≤ f.toRat) :
    (finite s .zero).div (finite false f) = finite s .zero := by
  rw [finite_div _ _ le, zero_toRat, zero_div, roundMagnitude_zero]

theorem keepDigits_zero (s : Bool) : (finite s .zero).keepDigits = finite s .zero := by
  rw [keepDigits, zero_toRat, Decimal.toRat_significant_of_nonpos (le_refl _), roundMagnitude_zero]

theorem hasKeptDigits_zero (s : Bool) : HasKeptDigits (finite s .zero) := by
  refine ⟨s, ⟨0, 0⟩, by decide, ?_⟩
  rw [Decimal.toRat, Nat.cast_zero, zero_mul, roundMagnitude_zero]

/-- Zero has no digits to lose. -/
theorem restored_zero (scaled : ((finite s .zero).mul (powerOfTen places)).isFinite = true) :
    Restored places (finite s .zero) := by
  rcases powerOfTen_cases places with overflow | ⟨f, factor, le⟩
  · rw [overflow] at scaled
    cases scaled
  · rw [Restored, zero_mul_powerOfTen scaled, keepDigits_zero, factor, zero_div_of_one_le le]

theorem isFinite_of_scalesExactly (exact : ScalesExactly places x) :
    (x.mul (powerOfTen places)).isFinite = true := by
  obtain ⟨q, f, -, -, product⟩ := exact
  by_contra overflow
  rw [toRat?_eq_none (Bool.eq_false_iff.2 overflow)] at product
  cases product

/-- The parts of an exact product of a nonzero whole value. -/
theorem exists_product (value : x.toRat? = some (n : Rat)) (nonzero : n ≠ 0)
    (exact : ScalesExactly places x) :
    ∃ s m f w, x = finite s m ∧ powerOfTen places = finite false f ∧ 1 ≤ toRat f ∧
      x.mul (powerOfTen places) = finite s w ∧ w.toRat = m.toRat * f.toRat ∧
      1 ≤ toRat m ∧ 1 ≤ toRat w := by
  obtain ⟨s, m, f, w, rfl, factor, le, scaled⟩ :=
    exists_of_isFinite_mul (isFinite_of_scalesExactly exact)
  obtain ⟨q, r, hq, hr, exact⟩ := exact
  have product : w.toRat = m.toRat * f.toRat := by
    rw [scaled] at exact
    rw [factor] at hr
    rw [← Option.some.inj hq, ← Option.some.inj hr] at exact
    exact signed_injective s ((Option.some.inj exact).trans (signed_mul s _ _).symm)
  have one_le : 1 ≤ m.toRat := by
    rw [toRat_eq_natAbs value]
    exact_mod_cast Int.natAbs_pos.2 nonzero
  have one_le' : 1 ≤ w.toRat := by
    rw [product]
    exact one_le_mul_of_one_le_of_one_le one_le le
  exact ⟨s, m, f, w, rfl, factor, le, scaled, product, one_le, one_le'⟩

/-- Where a whole value is scaled exactly, it comes back exactly if the product has no more digits than
the cut keeps. -/
theorem restored_iff_hasKeptDigits (value : x.toRat? = some (n : Rat))
    (exact : ScalesExactly places x) :
    Restored places x ↔ HasKeptDigits (x.mul (powerOfTen places)) := by
  rcases eq_or_ne n 0 with rfl | nonzero
  · obtain ⟨s, rfl⟩ := eq_zero_of_toRat? value
    have scaled := isFinite_of_scalesExactly exact
    rw [zero_mul_powerOfTen scaled]
    exact iff_of_true (restored_zero scaled) (hasKeptDigits_zero s)
  · obtain ⟨s, m, f, w, rfl, factor, le, scaled, product, one_le, one_le'⟩ :=
      exists_product value nonzero exact
    rw [scaled, restored_iff_keepDigits_eq factor le scaled product one_le,
      keepDigits_eq_self_iff one_le']

/-- Digits that are kept do not overflow. -/
theorem isFinite_keepDigits_of_hasKeptDigits (value : x.toRat? = some (n : Rat))
    (exact : ScalesExactly places x) (kept : HasKeptDigits (x.mul (powerOfTen places))) :
    (x.mul (powerOfTen places)).keepDigits.isFinite = true := by
  rcases eq_or_ne n 0 with rfl | nonzero
  · obtain ⟨s, rfl⟩ := eq_zero_of_toRat? value
    rw [zero_mul_powerOfTen (isFinite_of_scalesExactly exact), keepDigits_zero]
    rfl
  · obtain ⟨s, m, f, w, rfl, factor, le, scaled, product, one_le, one_le'⟩ :=
      exists_product value nonzero exact
    rw [scaled] at kept ⊢
    rw [(keepDigits_eq_self_iff one_le').2 kept]
    rfl

/-- A whole value is kept where the product is exact and has no more digits than the cut keeps. -/
theorem toRat?_roundToPlaces_of_hasKeptDigits (value : x.toRat? = some (n : Rat))
    (exact : ScalesExactly places x) (kept : HasKeptDigits (x.mul (powerOfTen places))) :
    (x.roundToPlaces places).toRat? = some (n : Rat) := by
  have cut := isFinite_keepDigits_of_hasKeptDigits value exact kept
  exact (toRat?_roundToPlaces_iff_restored value cut).2
    ((restored_iff_hasKeptDigits value exact).2 kept)

/-- Up to `10 ^ 22` the factor is the power of ten. -/
theorem powerOfTen_toRat? (few : places ≤ 22) :
    (powerOfTen places).toRat? = some ((10 ^ places : Nat) : Rat) := by
  have each : ∀ p : Fin 23, (powerOfTen p).toRat? = some ((10 ^ p.val : Nat) : Rat) := by
    decide +kernel
  exact each ⟨places, Nat.lt_succ_of_le few⟩

theorem exists_powerOfTen (few : places ≤ 22) :
    ∃ f, powerOfTen places = finite false f ∧ toRat f = 10 ^ places := by
  have ten := powerOfTen_toRat? few
  rcases powerOfTen_cases places with overflow | ⟨f, factor, -⟩
  · rw [overflow] at ten
    cases ten
  · rw [factor] at ten
    exact ⟨f, factor, (Option.some.inj ten).trans (Nat.cast_pow _ _)⟩

/-- Products of integers of 64 bits with such powers of ten are far below the bound of the cut. -/
theorem isFinite_keepDigits_of_few (value : x.toRat? = some (n : Rat)) (range : n.natAbs ≤ 2 ^ 63)
    (few : places ≤ 22) (exact : ScalesExactly places x) :
    (x.mul (powerOfTen places)).keepDigits.isFinite = true := by
  rw [isFinite_keepDigits_iff (isFinite_of_scalesExactly exact)]
  rintro ⟨q, scaled, beyond⟩
  obtain ⟨_, _, hq, hr, product⟩ := exact
  rw [value] at hq
  rw [powerOfTen_toRat? few] at hr
  rw [← Option.some.inj hq, ← Option.some.inj hr, scaled] at product
  have size : |q| = ((n.natAbs * 10 ^ places : Nat) : Rat) := by
    rw [Option.some.inj product, abs_mul, Nat.abs_cast, Nat.cast_mul, Nat.cast_natAbs, Int.cast_abs]
  have power : 10 ^ places ≤ 10 ^ 22 := Nat.pow_le_pow_right (by decide) few
  have most : ((n.natAbs * 10 ^ places : Nat) : Rat) ≤ ((2 ^ 63 * 10 ^ 22 : Nat) : Rat) :=
    Nat.cast_le.2 (Nat.mul_le_mul range power)
  have below : ((2 ^ 63 * 10 ^ 22 : Nat) : Rat) < cutBound := by decide +kernel
  rw [size] at beyond
  exact absurd (beyond.trans most) (not_le.2 below)

/-- Up to `10 ^ 22` a whole value with an exact product is kept exactly if the product has no more
digits than the cut keeps. -/
theorem toRat?_roundToPlaces_iff_hasKeptDigits (value : x.toRat? = some (n : Rat))
    (range : n.natAbs ≤ 2 ^ 63) (few : places ≤ 22) (exact : ScalesExactly places x) :
    (x.roundToPlaces places).toRat? = some (n : Rat) ↔
      HasKeptDigits (x.mul (powerOfTen places)) := by
  have cut := isFinite_keepDigits_of_few value range few exact
  rw [toRat?_roundToPlaces_iff_restored value cut, restored_iff_hasKeptDigits value exact]

/-- Up to `2 ^ 53` a nonzero value is scaled to its exact product with the power of ten. -/
theorem exists_scaled_of_le (value : x.toRat? = some (n : Rat)) (nonzero : n ≠ 0)
    (small : n.natAbs * 10 ^ places ≤ 2 ^ 53) :
    ScalesExactly places x ∧ ∃ s w, x.mul (powerOfTen places) = finite s w ∧
      toRat w = ((n.natAbs * 10 ^ places : Nat) : Rat) := by
  have few : places < 16 := by
    have power : 10 ^ places < 10 ^ 16 := by
      have most := Nat.le_mul_of_pos_left (10 ^ places) (Int.natAbs_pos.2 nonzero)
      omega
    exact (Nat.pow_lt_pow_iff_right (by decide)).1 power
  have ten := powerOfTen_toRat? (by omega : places ≤ 22)
  rcases powerOfTen_cases places with overflow | ⟨f, factor, le⟩
  · rw [overflow] at ten
    cases ten
  · cases x with
    | nan => cases value
    | infinite s => cases value
    | finite s m =>
      rw [factor] at ten
      have product : m.toRat * f.toRat = ((n.natAbs * 10 ^ places : Nat) : Rat) := by
        have power : f.toRat = ((10 ^ places : Nat) : Rat) := Option.some.inj ten
        rw [toRat_eq_natAbs value, power, ← Nat.cast_mul]
      obtain ⟨w, scaled, exact⟩ := exists_roundMagnitude_eq_finite s small
      rw [← product, ← finite_mul, ← factor] at scaled
      refine ⟨⟨_, _, rfl, factor ▸ ten, ?_⟩, s, w, scaled, exact⟩
      rw [scaled, toRat?, exact, ← product, signed_mul, ← Option.some.inj ten]
      rfl

/-- The cut of a number of sixteen digits is a multiple of ten. Being at most `2 ^ 53` it is a value
itself, so that only a multiple of ten is its own cut. -/
theorem dvd_of_keepDigits_eq_self {k : Nat} (value : m.toRat = k) (small : k ≤ 2 ^ 53)
    (long : 10 ^ keptDigits ≤ k) (kept : (finite s m).keepDigits = finite s m) : 10 ∣ k := by
  have place := Decimal.toRat_significant_of_extra_digit long (by rw [keptDigits]; omega)
  have most : nearestNat .toEven ((k : Rat) / 10) ≤ 900719925474099 := by
    have last : nearestNat .toEven (((2 ^ 53 : Nat) : Rat) / 10) = 900719925474099 := by
      decide +kernel
    rw [← last]
    exact nearestNat_mono .toEven (div_le_div_of_nonneg_right (Nat.cast_le.2 small) (by norm_num))
  have whole : nearestNat .toEven ((k : Rat) / 10) * 10 ≤ 2 ^ 53 := by omega
  obtain ⟨t, made, exact⟩ := exists_roundMagnitude_eq_finite s whole
  rw [keepDigits, value, place, made, finite.injEq] at kept
  rw [kept.2, value, Nat.cast_inj] at exact
  exact ⟨_, exact.trans (Nat.mul_comm _ _)⟩

/-- A natural number up to `2 ^ 53` has no more digits than the cut keeps, unless its sixteenth digit is
not zero. -/
theorem hasKeptDigits_iff_dvd {k : Nat} (value : m.toRat = k) (small : k ≤ 2 ^ 53) :
    HasKeptDigits (finite s m) ↔ k < 10 ^ keptDigits ∨ 10 ∣ k := by
  constructor
  · intro kept
    rcases Nat.lt_or_ge k (10 ^ keptDigits) with short | long
    · exact .inl short
    · have one_le : 1 ≤ m.toRat := by
        rw [value]
        exact_mod_cast (Nat.one_le_pow _ _ (by decide)).trans long
      exact .inr (dvd_of_keepDigits_eq_self value small long ((keepDigits_eq_self_iff one_le).2 kept))
  · rintro (short | ⟨digits, rfl⟩)
    · refine ⟨s, ⟨k, 0⟩, short, ?_⟩
      have decimal : (Decimal.mk k 0).toRat = k := by simp [Decimal.toRat]
      rw [decimal, ← value, roundMagnitude_toRat]
    · have short : digits < 10 ^ keptDigits := by
        rw [keptDigits]
        omega
      refine ⟨s, ⟨digits, 1⟩, short, ?_⟩
      have decimal : (Decimal.mk digits 1).toRat = ((10 * digits : Nat) : Rat) := by
        rw [Decimal.toRat]
        push_cast
        ring
      rw [decimal, ← value, roundMagnitude_toRat]

/-- A whole value whose product with the power of ten is at most `2 ^ 53` is kept exactly if the product
has no more digits than the cut keeps. -/
theorem toRat?_roundToPlaces_iff_dvd (value : x.toRat? = some (n : Rat))
    (small : n.natAbs * 10 ^ places ≤ 2 ^ 53) :
    (x.roundToPlaces places).toRat? = some (n : Rat) ↔
      n.natAbs * 10 ^ places < 10 ^ keptDigits ∨ 10 ∣ n.natAbs * 10 ^ places := by
  rcases eq_or_ne n 0 with rfl | nonzero
  · obtain ⟨s, rfl⟩ := eq_zero_of_toRat? value
    refine iff_of_true ?_ (.inr (by simp))
    by_cases scaled : ((finite s .zero).mul (powerOfTen places)).isFinite = true
    · have kept : ((finite s .zero).mul (powerOfTen places)).keepDigits.isFinite = true := by
        rw [zero_mul_powerOfTen scaled, keepDigits_zero]
        rfl
      exact (toRat?_roundToPlaces_iff_restored value kept).2 (restored_zero scaled)
    · exact toRat?_roundToPlaces_of_overflow value (Bool.eq_false_iff.2 scaled)
  · obtain ⟨exact, s, w, scaled, product⟩ := exists_scaled_of_le value nonzero small
    have kept : (x.mul (powerOfTen places)).keepDigits.isFinite = true := by
      rw [scaled, isFinite_keepDigits_finite_iff, product]
      exact lt_cutBound_of_le (by exact_mod_cast small)
    rw [toRat?_roundToPlaces_iff_restored value kept, restored_iff_hasKeptDigits value exact, scaled,
      hasKeptDigits_iff_dvd product small]

end Calculator.Binary64
