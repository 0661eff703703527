import Calculator.Proofs.Binary64.RelativeError
import Calculator.Proofs.Binary64.Snapping

/-!
# Typed decimals and their halves

A decimal of at most fifteen digits is not a binary64 value, but the reading and the scaling are off by
two roundings at most, so that the cut gives the scaled decimal back. Its own reading does not cross a
half: the halves below `2 ^ 52` are values, and any other decimal is further from a half than its reading
from it. The value is therefore rounded as the decimal is, half away from zero, and the division by the
power of ten, which is exact up to `10 ^ 22`, gives the value nearest to the rounded decimal.
-/

namespace Calculator

/-- Below `2 ^ 52` the halves are values. -/
theorem positionValue_nearestIndex_half {k : Nat} (small : k < 2 ^ 53) :
    positionValue (nearestIndex ((k : Rat) / 2)) = k / 2 := by
  have units : (k : Rat) / 2 = k * (2 : Rat) ^ (-1 : Int) := by
    rw [zpow_neg_one, div_eq_mul_inv]
  rw [units, positionValue_nearestIndex_mul_zpow small (by decide)]

namespace Decimal

variable {d : Decimal}

/-- A half is a whole number of units of every fractional place. -/
theorem exists_half (e : Nat) (k : Nat) :
    ∃ h : Nat, (k : Rat) / 2 = h * (10 : Rat) ^ (-(e + 1 : Nat) : Int) := by
  refine ⟨k * 5 * 10 ^ e, ?_⟩
  rw [zpow_neg, zpow_natCast, pow_succ]
  push_cast
  field_simp
  ring

/-- A decimal below a half is not rounded up to it: one unit of its last place lies between them, and
the rounding moves it by less. -/
theorem positionValue_nearestIndex_lt_half {k : Nat} (digits : d.digits < 10 ^ 15)
    (fraction : d.exponent < 0) (normal : (2 : Rat) ^ (-1022 : Int) ≤ d.toRat)
    (below : d.toRat < (k : Rat) / 2) : positionValue (nearestIndex d.toRat) < k / 2 := by
  obtain ⟨e, exponent⟩ : ∃ e : Nat, d.exponent = (-(e + 1 : Nat) : Int) :=
    ⟨(-d.exponent - 1).toNat, by omega⟩
  obtain ⟨h, units⟩ := exists_half e k
  have error := (abs_le.1 (abs_positionValue_nearestIndex_sub_le_div normal)).2
  rw [units] at below ⊢
  have unit : (0 : Rat) < (10 : Rat) ^ (-(e + 1 : Nat) : Int) := zpow_pos (by norm_num) _
  have value : d.toRat = d.digits * (10 : Rat) ^ (-(e + 1 : Nat) : Int) := by rw [toRat, exponent]
  rw [value] at below error ⊢
  have less : d.digits + 1 ≤ h := by exact_mod_cast lt_of_mul_lt_mul_right below unit.le
  generalize (10 : Rat) ^ (-(e + 1 : Nat) : Int) = u at unit error ⊢
  have gap : ((d.digits + 1 : Nat) : Rat) * u ≤ h * u :=
    mul_le_mul_of_nonneg_right (Nat.cast_le.2 less) unit.le
  have few : (d.digits : Rat) * u < 10 ^ 15 * u :=
    mul_lt_mul_of_pos_right (by exact_mod_cast digits) unit
  push_cast at gap
  linarith

/-- Reading a decimal does not change the whole number nearest to it. -/
theorem nearestNat_positionValue_nearestIndex (digits : d.digits < 10 ^ 15)
    (small : d.toRat < 10 ^ 15) (normal : (2 : Rat) ^ (-1022 : Int) ≤ d.toRat) :
    nearestNat .upward (positionValue (nearestIndex d.toRat)) = nearestNat .upward d.toRat := by
  rcases le_or_gt 0 d.exponent with whole | fraction
  · obtain ⟨k, natural⟩ := exists_natCast whole
    rw [natural] at small ⊢
    have small' : k < 10 ^ 15 := by exact_mod_cast small
    rw [positionValue_nearestIndex_natCast (by omega)]
  · have nonneg := d.toRat_nonneg
    obtain ⟨lower, upper⟩ := nearestNat_upward_bounds nonneg
    have most : nearestNat .upward d.toRat ≤ 10 ^ 15 :=
      nearestNat_le_of_le .upward (by exact_mod_cast small.le)
    generalize nearestNat .upward d.toRat = n at lower upper most
    have read : 0 ≤ positionValue (nearestIndex d.toRat) := by
      rw [← positionValue_zero]
      exact positionValue_strictMono.monotone (Nat.zero_le _)
    refine (nearestNat_upward_eq_iff read).2 ⟨?_, ?_⟩
    · rcases Nat.eq_zero_or_pos n with rfl | positive
      · rw [Nat.cast_zero]
        linarith
      · have half : ((2 * n - 1 : Nat) : Rat) / 2 = n - 1 / 2 := by
          rw [Nat.cast_sub (by omega)]
          push_cast
          ring
        rw [← half] at lower ⊢
        rw [← positionValue_nearestIndex_half (by omega)]
        exact positionValue_nearestIndex_mono lower
    · have half : ((2 * n + 1 : Nat) : Rat) / 2 = n + 1 / 2 := by
        push_cast
        ring
      rw [← half] at upper ⊢
      exact positionValue_nearestIndex_lt_half digits fraction normal upper

end Decimal

namespace Binary64

open Magnitude

variable {places : Nat} {d : Decimal}

/-- A decimal that is scaled from a full coefficient is its own cut. -/
theorem snappedNat_of_normal (digits : d.digits < 10 ^ 15) (small : d.toRat * 10 ^ places < 10 ^ 15)
    (normal : (2 : Rat) ^ (-1022 : Int) ≤ d.toRat) :
    snappedNat (positionValue (nearestIndex (positionValue (nearestIndex d.toRat) * 10 ^ places))) =
      nearestNat .upward (d.toRat * 10 ^ places) := by
  have one_le : (1 : Rat) ≤ 10 ^ places := one_le_pow₀ (by norm_num)
  have nonneg : (0 : Rat) ≤ 10 ^ places := by linarith
  have pos : 0 < d.toRat := lt_of_lt_of_le (zpow_pos (by norm_num) _) normal
  have first : Within 1 (d.toRat * 10 ^ places) (positionValue (nearestIndex d.toRat) * 10 ^ places) :=
    ((Within.refl d.toRat).round normal).mul nonneg
  have second := first.round
    ((normal_positionValue_nearestIndex normal).trans
      (le_mul_of_one_le_right ((zpow_pos (by norm_num) _).le.trans
        (normal_positionValue_nearestIndex normal)) one_le))
  have near := second.abs_sub_le (by decide) (mul_nonneg pos.le nonneg)
  have scaled : (2 : Rat) ^ (-1022 : Int) ≤ d.toRat * 10 ^ places :=
    normal.trans (le_mul_of_one_le_right pos.le one_le)
  rw [← d.toRat_shift] at small near scaled ⊢
  have kept : (Decimal.mk d.digits (d.exponent + places)).digits < 10 ^ keptDigits := digits
  have cut := Decimal.toRat_significant_of_near (by decide) kept
    (lt_of_lt_of_le (zpow_pos (by norm_num) _) scaled) near
  rw [snappedNat, cut, Decimal.nearestNat_positionValue_nearestIndex kept small scaled]

/-- A decimal below the full coefficients is scaled to nothing near a half. -/
theorem snappedNat_of_subnormal (few : places ≤ 22)
    (subnormal : d.toRat < (2 : Rat) ^ (-1022 : Int)) :
    snappedNat (positionValue (nearestIndex (positionValue (nearestIndex d.toRat) * 10 ^ places))) =
      nearestNat .upward (d.toRat * 10 ^ places) := by
  have factor : (10 : Rat) ^ places ≤ 10 ^ 22 := pow_le_pow_right₀ (by norm_num) few
  have tiny : (2 : Rat) ^ (-1022 : Int) * 10 ^ 22 ≤ 1 / 4 := by decide +kernel
  have scale {q : Rat} (le : q ≤ (2 : Rat) ^ (-1022 : Int)) : q * 10 ^ places ≤ 1 / 4 :=
    (mul_le_mul le factor (by positivity) (zpow_pos (by norm_num) _).le).trans tiny
  have zero : nearestNat .upward (d.toRat * 10 ^ places) = 0 := by
    have bound := scale subnormal.le
    have nonneg := mul_nonneg d.toRat_nonneg (by positivity : (0 : Rat) ≤ 10 ^ places)
    refine (nearestNat_upward_eq_iff nonneg).2 ⟨?_, ?_⟩
    · push_cast
      linarith
    · push_cast
      linarith
  have read : positionValue (nearestIndex d.toRat) ≤ (2 : Rat) ^ (-1022 : Int) := by
    rw [← positionValue_first_normal] at subnormal ⊢
    have mono := positionValue_nearestIndex_mono subnormal.le
    rwa [nearestIndex_positionValue] at mono
  have again := snappedNat_mono (positionValue_nearestIndex_mono (scale read))
  have quarter : snappedNat (positionValue (nearestIndex (1 / 4))) = 0 := by decide +kernel
  omega

/-- A typed decimal is scaled without an overflow, also of the cut. -/
theorem exists_scaled_of_typed (s : Bool) {f : Magnitude} (few : places ≤ 22)
    (power : f.toRat = 10 ^ places) (small : d.toRat < 10 ^ 15) :
    ∃ m w, roundMagnitude s d.toRat = finite s m ∧
      (finite s m).mul (finite false f) = finite s w ∧
      w.toRat = positionValue (nearestIndex (positionValue (nearestIndex d.toRat) * 10 ^ places)) ∧
      w.toRat < cutBound := by
  obtain ⟨last, -, value⟩ :=
    exists_roundMagnitude_eq_finite false (by decide : 10 ^ 15 ≤ 2 ^ 53)
  have bound : nearestIndex d.toRat ≤ last.index := by
    refine last.nearestIndex_le_of_le ?_
    rw [value]
    exact_mod_cast small.le
  refine ⟨⟨nearestIndex d.toRat, bound.trans_lt last.index_lt⟩, ?_⟩
  have read : positionValue (nearestIndex d.toRat) ≤ 10 ^ 15 := by
    have mono := positionValue_strictMono.monotone bound
    rw [← toRat_eq, value] at mono
    exact_mod_cast mono
  have product : positionValue (nearestIndex d.toRat) * f.toRat ≤ lastKept.toRat := by
    have factor : (10 : Rat) ^ places ≤ 10 ^ 22 := pow_le_pow_right₀ (by norm_num) few
    have most : (10 : Rat) ^ 15 * 10 ^ 22 ≤ lastKept.toRat := by decide +kernel
    rw [power]
    exact (mul_le_mul read factor (by positivity) (by positivity)).trans most
  have kept := lastKept.nearestIndex_le_of_le product
  refine ⟨⟨_, kept.trans_lt lastKept.index_lt⟩, roundMagnitude_eq_finite_iff.2 ⟨rfl, rfl⟩, ?_, ?_,
    lt_cutBound_iff.2 kept⟩
  · rw [finite_mul, toRat_eq]
    exact roundMagnitude_eq_finite_iff.2 ⟨rfl, rfl⟩
  · rw [toRat_eq, ← power]

theorem nearestAway_signed_iff {s : Bool} {q : Rat} (nonneg : 0 ≤ q) {n : Int} :
    NearestAway (signed s q) n ↔ (n : Rat) = signed s (nearestNat .upward q) := by
  cases s with
  | false =>
    rw [signed, if_neg Bool.false_ne_true, nearestAway_iff_of_nonneg nonneg, signed,
      if_neg Bool.false_ne_true]
    exact_mod_cast Iff.rfl
  | true =>
    have negative := nearestAway_neg_iff (q := q) (n := -n)
    rw [neg_neg, nearestAway_iff_of_nonneg nonneg] at negative
    refine negative.trans ?_
    rw [signed, if_pos rfl, neg_eq_iff_eq_neg]
    exact_mod_cast Iff.rfl

/-- **Typed decimals.** A decimal of at most fifteen digits that is scaled to less than `10 ^ 15` is
rounded, as a value, to the value nearest to what the decimal itself is rounded to, half away from
zero. -/
theorem roundToPlaces_typed (digits : d.digits < 10 ^ 15) (few : places ≤ 22)
    (small : d.toRat * 10 ^ places < 10 ^ 15) (s : Bool) :
    ∃ n : Int, (∀ k : Int, NearestAway (signed s d.toRat * 10 ^ places) k ↔ k = n) ∧
      (nearest s (signed s d.toRat)).roundToPlaces places = nearest s (n / 10 ^ places) := by
  have one_le : (1 : Rat) ≤ 10 ^ places := one_le_pow₀ (by norm_num)
  have nonneg := mul_nonneg d.toRat_nonneg (zero_le_one.trans one_le)
  obtain ⟨f, factor, power⟩ := exists_powerOfTen few
  have typed : d.toRat < 10 ^ 15 := (le_mul_of_one_le_right d.toRat_nonneg one_le).trans_lt small
  obtain ⟨m, w, read, product, value, kept⟩ := exists_scaled_of_typed s few power typed
  have scaled : ((finite s m).mul (powerOfTen places)).isFinite = true := by
    rw [factor, product]
    rfl
  have snapped : snappedNat w.toRat = nearestNat .upward (d.toRat * 10 ^ places) := by
    rw [value]
    rcases le_or_gt ((2 : Rat) ^ (-1022 : Int)) d.toRat with normal | subnormal
    · exact snappedNat_of_normal digits small normal
    · exact snappedNat_of_subnormal few subnormal
  have most : nearestNat .upward (d.toRat * 10 ^ places) ≤ 10 ^ 15 :=
    nearestNat_le_of_le .upward (by exact_mod_cast small.le)
  obtain ⟨t, whole, natural⟩ := exists_roundMagnitude_eq_finite s (most.trans (by decide))
  obtain ⟨n, sign⟩ := exists_intCast_signed s (nearestNat .upward (d.toRat * 10 ^ places))
  refine ⟨n, fun k => ?_, ?_⟩
  · rw [← signed_mul, nearestAway_signed_iff nonneg, ← sign, Int.cast_inj]
  · have quotient : (n : Rat) / 10 ^ places =
        signed s (nearestNat .upward (d.toRat * 10 ^ places) / 10 ^ places) := by
      rw [sign, div_eq_mul_inv, div_eq_mul_inv, signed_mul]
    rw [nearest_signed s d.toRat_nonneg, read, roundToPlaces_of_scaled scaled, factor, product,
      roundWhole_keepDigits (isFinite_keepDigits_finite_iff.2 kept), snapped, whole,
      finite_div _ _ (one_le.trans_eq power.symm), natural, power, quotient,
      nearest_signed s (div_nonneg (Nat.cast_nonneg _) (zero_le_one.trans one_le))]

theorem roundToPlaces_typed_of_minus_half :
    (1005 : Nat) < 10 ^ 15 ∧ (2 : Nat) ≤ 22 ∧ (Decimal.mk 1005 (-3)).toRat * 10 ^ 2 < 10 ^ 15 ∧
      NearestAway (signed true (Decimal.mk 1005 (-3)).toRat * 10 ^ 2) (-101) ∧
      (nearest true (signed true (Decimal.mk 1005 (-3)).toRat)).roundToPlaces 2 =
        nearest true ((-101 : Int) / 10 ^ 2) := by
  have digits : (Decimal.mk 1005 (-3)).digits < 10 ^ 15 := by decide
  have few : 2 ≤ 22 := by decide
  have small : (Decimal.mk 1005 (-3)).toRat * 10 ^ 2 < 10 ^ 15 := by decide +kernel
  have scaled : signed true (Decimal.mk 1005 (-3)).toRat * 10 ^ 2 = -(201 / 2) := by decide +kernel
  have away : NearestAway (signed true (Decimal.mk 1005 (-3)).toRat * 10 ^ 2) (-101) := by
    rw [scaled, NearestAway]
    norm_num
  obtain ⟨n, unique, rounded⟩ := roundToPlaces_typed digits few small true
  obtain rfl := (unique (-101)).1 away
  exact ⟨digits, few, small, away, rounded⟩

end Binary64

end Calculator
