import Calculator.Binary64.Places
import Calculator.Proofs.Binary64.Whole

/-!
# Whole parts are exact

A value of at least `2 ^ 52` is whole, and below that every whole number is a value. The whole part of a
value is therefore one itself, and what it leaves is rounded to zero only if it is zero, because two
different values are at least the smallest magnitude apart. A value is whole exactly if its fraction is
zero, and a whole value in a range is taken as the integer that it is.
-/

namespace Calculator

/-- Values are whole numbers of units of the smallest magnitude. -/
theorem exists_positionValue_eq_units (index : Nat) :
    ∃ units : Nat, positionValue index = units * (2 : Rat) ^ (-1074 : Int) := by
  refine ⟨positionCoefficient index * 2 ^ positionBinade index, ?_⟩
  rw [positionValue, sub_eq_add_neg, zpow_add₀ (by decide), zpow_natCast, Nat.cast_mul, Nat.cast_pow,
    Nat.cast_ofNat, mul_assoc]

/-- From `2 ^ 52` on there are no fractions. -/
theorem exists_positionValue_eq_natCast {index : Nat}
    (large : (2 : Rat) ^ (52 : Int) ≤ positionValue index) :
    ∃ k : Nat, positionValue index = k := by
  have whole : 1074 ≤ positionBinade index := by
    by_contra fine
    have unit : (0 : Rat) < (2 : Rat) ^ ((positionBinade index : Int) - 1074) :=
      zpow_pos (by decide) _
    have few : (positionCoefficient index : Rat) < (0x20000000000000 : Nat) :=
      Nat.cast_lt.2 (positionCoefficient_lt index)
    have below := mul_lt_mul_of_pos_right few unit
    rw [(binade_ends _).2] at below
    have top : (2 : Rat) ^ ((positionBinade index : Int) - 1074 + 53) ≤ (2 : Rat) ^ (52 : Int) :=
      zpow_le_zpow_right₀ (by norm_num) (by omega)
    exact absurd (below.trans_le top) (not_lt.2 large)
  refine ⟨positionCoefficient index * 2 ^ (positionBinade index - 1074), ?_⟩
  have exponent : (positionBinade index : Int) - 1074 = (positionBinade index - 1074 : Nat) := by
    omega
  rw [positionValue, exponent, zpow_natCast]
  push_cast
  rfl

namespace Binary64

open Magnitude

variable {s : Bool} {m : Magnitude} {x : Binary64} {n low high : Int}

theorem isZero_ofIndex_iff {index : Nat} : (ofIndex s index).isZero = true ↔ index = 0 := by
  unfold ofIndex
  split
  · exact beq_iff_eq
  · rename_i past
    exact iff_of_false Bool.false_ne_true fun zero => past (by omega)

/-- Only numbers that are rounded to the first position are rounded to a zero. -/
theorem isZero_nearest_iff (zeroNegative : Bool) (q : Rat) :
    (nearest zeroNegative q).isZero = true ↔ nearestIndex |q| = 0 := by
  unfold nearest
  split_ifs with zero negative
  · rw [zero, abs_zero, nearestIndex_zero]
    exact iff_of_true rfl rfl
  · rw [abs_of_neg negative]
    exact isZero_ofIndex_iff
  · rw [abs_of_nonneg (not_lt.1 negative)]
    exact isZero_ofIndex_iff

/-- The whole part of a value is a value. -/
theorem exists_trunc (s : Bool) (m : Magnitude) :
    ∃ t, (finite s m).trunc = finite s t ∧ t.toRat = m.toRat.floor.toNat := by
  rcases le_or_gt ((2 : Rat) ^ (52 : Int)) m.toRat with large | small
  · obtain ⟨k, value⟩ : ∃ k : Nat, m.toRat = k := by
      rw [toRat_eq] at large ⊢
      exact exists_positionValue_eq_natCast large
    have floor : m.toRat.floor.toNat = k := by rw [value, floor_natCast, Int.toNat_natCast]
    refine ⟨m, ?_, by rw [floor, value]⟩
    rw [trunc, floor, ← value, roundMagnitude_toRat]
  · have whole : m.toRat.floor.toNat ≤ 2 ^ 53 := by
      have below := (floor_toNat_bounds m.toRat_nonneg).1.trans small.le
      have bound : (m.toRat.floor.toNat : Rat) ≤ ((2 ^ 53 : Nat) : Rat) :=
        below.trans (by norm_num)
      exact Nat.cast_le.1 bound
    exact exists_roundMagnitude_eq_finite s whole

theorem signed_add_signed_not (s : Bool) (q r : Rat) :
    signed s q + signed (!s) r = signed s (q - r) := by
  cases s with
  | false => exact (sub_eq_add_neg q r).symm
  | true =>
    show -q + r = -(q - r)
    ring

/-- Different values are not rounded together by taking their difference. -/
theorem nearestIndex_sub_eq_zero_iff {i j : Nat} (le : j ≤ i) :
    nearestIndex (positionValue i - positionValue j) = 0 ↔ i = j := by
  constructor
  · intro zero
    by_contra other
    obtain ⟨a, first⟩ := exists_positionValue_eq_units i
    obtain ⟨b, second⟩ := exists_positionValue_eq_units j
    have unit : (0 : Rat) < (2 : Rat) ^ (-1074 : Int) := zpow_pos (by decide) _
    have least : positionValue 1 = (2 : Rat) ^ (-1074 : Int) := by decide +kernel
    have apart : positionValue 1 ≤ positionValue i - positionValue j := by
      have less := positionValue_strictMono (lt_of_le_of_ne le (Ne.symm other))
      rw [first, second] at less
      have steps : b + 1 ≤ a := by exact_mod_cast lt_of_mul_lt_mul_right less unit.le
      rw [least, first, second, ← sub_mul]
      refine le_mul_of_one_le_left unit.le ?_
      have apart : ((b + 1 : Nat) : Rat) ≤ a := Nat.cast_le.2 steps
      push_cast at apart
      linarith
    have position := nearestIndex_mono apart
    rw [nearestIndex_positionValue] at position
    omega
  · rintro rfl
    rw [sub_self, nearestIndex_zero]

/-- A value has no fraction exactly if it is whole. -/
theorem isZero_fract_iff : (finite s m).fract.isZero = true ↔ ∃ k : Nat, m.toRat = k := by
  obtain ⟨t, whole, value⟩ := exists_trunc s m
  have below : t.toRat ≤ m.toRat := by
    rw [value]
    exact (floor_toNat_bounds m.toRat_nonneg).1
  have rest : (finite s m).fract = nearest (s && !s) (signed s (m.toRat - t.toRat)) := by
    rw [fract, whole, sub, negate, add, signed_add_signed_not]
  rw [rest, isZero_nearest_iff, abs_signed (sub_nonneg.2 below), toRat_eq, toRat_eq,
    nearestIndex_sub_eq_zero_iff (toRat_le_toRat.1 below)]
  constructor
  · intro same
    exact ⟨_, by rw [same, ← toRat_eq, value]⟩
  · rintro ⟨k, natural⟩
    rw [← toRat_eq] at natural
    rw [natural, floor_natCast, Int.toNat_natCast, ← natural] at value
    rw [toRat_injective value]

/-- A whole value in the range is the integer that it is. -/
theorem toIntWithin_of_toRat? (value : x.toRat? = some (n : Rat)) (lower : low ≤ n)
    (upper : n ≤ high) : x.toIntWithin low high = n := by
  cases x with
  | nan => cases value
  | infinite s => cases value
  | finite s m =>
    have floor : m.toRat.floor = n.natAbs := by rw [toRat_eq_natAbs value, floor_natCast]
    have sign : (if s then -(n.natAbs : Int) else n.natAbs) = n := by
      have exact := Option.some.inj value
      rw [toRat_eq_natAbs value, ← Int.cast_natCast] at exact
      cases s with
      | false => exact Int.cast_injective exact
      | true => exact Int.cast_injective ((Int.cast_neg _).trans exact)
    rw [toIntWithin, floor, sign]
    omega

end Binary64

end Calculator
