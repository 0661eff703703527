import Calculator.Proofs.Binary64.Finite
import Calculator.Proofs.Binary64.Spacing
import Calculator.Proofs.Decimal.Significant

/-!
# Whole values

A whole number is rounded to a whole value, and up to `2 ^ 53` to itself. Products of whole values are
therefore whole, the powers of ten are, and so is the decimal cut of a whole value. The nearest whole
number of such a value is the value.
-/

namespace Calculator

/-- The value nearest to a natural number is natural. -/
theorem exists_positionValue_nearestIndex (n : Nat) :
    ∃ k : Nat, positionValue (nearestIndex n) = k := by
  rcases Nat.eq_zero_or_pos n with rfl | positive
  · exact ⟨0, by rw [Nat.cast_zero, nearestIndex_zero, positionValue_zero]⟩
  · have pos : (0 : Rat) < n := Nat.cast_pos.2 positive
    have grid := exists_nearestNat_mul_zpow .toEven (b := 2) (by decide) (spacingExponent n) n
    rw [Nat.cast_ofNat] at grid
    obtain ⟨k, value⟩ := grid
    exact ⟨k, by rw [positionValue_nearestIndex pos, value]⟩

/-- Up to `2 ^ 53` a natural number is a value. -/
theorem positionValue_nearestIndex_natCast {n : Nat} (small : n ≤ 0x20000000000000) :
    positionValue (nearestIndex n) = n := by
  rcases Nat.lt_or_eq_of_le small with inside | rfl
  · have exact := positionValue_nearestIndex_mul_zpow inside (by decide : -1074 ≤ (0 : Int))
    rwa [zpow_zero, mul_one] at exact
  · have power : ((0x20000000000000 : Nat) : Rat) = (1 : Nat) * (2 : Rat) ^ (53 : Int) := by norm_num
    rw [power, positionValue_nearestIndex_mul_zpow (by decide) (by decide)]

namespace Binary64

/-- The values that are whole numbers if they are finite. -/
inductive Whole : Binary64 → Prop where
  | nan : Whole .nan
  | infinite (s : Bool) : Whole (.infinite s)
  | finite (s : Bool) {m : Magnitude} {k : Nat} (value : m.toRat = k) : Whole (.finite s m)

theorem whole_roundMagnitude (s : Bool) (n : Nat) : Whole (roundMagnitude s n) := by
  obtain ⟨k, value⟩ := exists_positionValue_nearestIndex n
  unfold roundMagnitude ofIndex
  split
  · exact .finite s ((Magnitude.toRat_eq _).trans value)
  · exact .infinite s

/-- A natural number up to `2 ^ 53` is a value. -/
theorem exists_roundMagnitude_eq_finite (s : Bool) {n : Nat} (small : n ≤ 2 ^ 53) :
    ∃ m, roundMagnitude s n = finite s m ∧ m.toRat = n := by
  have last : Magnitude.toRat ⟨0x4340000000000000, by decide⟩ = ((2 ^ 53 : Nat) : Rat) := by
    decide +kernel
  have bound := Magnitude.nearestIndex_le_of_le _ ((Nat.cast_le.2 small).trans_eq last.symm)
  dsimp only at bound
  refine ⟨⟨nearestIndex n, by omega⟩, roundMagnitude_eq_finite_iff.2 ⟨rfl, rfl⟩, ?_⟩
  rw [Magnitude.toRat_eq, positionValue_nearestIndex_natCast small]

/-- The rounded product of whole values is whole. -/
theorem Whole.mul {x y : Binary64} (hx : Whole x) (hy : Whole y) : Whole (x.mul y) := by
  cases hx with
  | nan => exact .nan
  | infinite s =>
    cases hy with
    | nan => exact .nan
    | infinite t => exact .infinite _
    | finite t value =>
      rw [Binary64.mul]
      split
      · exact .nan
      · exact .infinite _
  | finite s value =>
    cases hy with
    | nan => exact .nan
    | infinite t =>
      rw [Binary64.mul]
      split
      · exact .nan
      · exact .infinite _
    | finite t value' =>
      rw [Binary64.mul, value, value', ← Nat.cast_mul]
      exact whole_roundMagnitude _ _

/-- Every round of the repeated squaring keeps both the product and the square whole. -/
theorem Whole.mulPow {r a : Binary64} (hr : Whole r) (ha : Whole a) (n : Nat) :
    Whole (mulPow r a n) := by
  fun_induction Binary64.mulPow r a n with
  | case1 => exact hr
  | case2 r a n _ ih =>
    refine ih ?_ (ha.mul ha)
    split
    · exact hr.mul ha
    · exact hr

theorem whole_ofInt (n : Nat) : Whole (ofInt n) := by
  rw [ofInt, Int.cast_natCast, nearest]
  split_ifs with zero negative
  · exact .finite false (Magnitude.zero_toRat.trans Nat.cast_zero.symm)
  · exact absurd negative (not_lt.2 (Nat.cast_nonneg n))
  · exact whole_roundMagnitude _ _

theorem whole_powerOfTen (places : Nat) : Whole (powerOfTen places) :=
  (whole_ofInt 1).mulPow (whole_ofInt 10) places

/-- The cut of a whole value is whole. -/
theorem Whole.keepDigits {x : Binary64} (hx : Whole x) : Whole x.keepDigits := by
  cases hx with
  | nan => exact .nan
  | infinite s => exact .infinite s
  | @finite s m k value =>
    obtain ⟨cut, decimal⟩ := Decimal.exists_toRat_significant keptDigits k
    rw [Binary64.keepDigits, value, decimal]
    exact whole_roundMagnitude s cut

/-- The nearest whole number of a whole value is the value. -/
theorem Whole.roundWhole_eq {x : Binary64} (hx : Whole x) : x.roundWhole = x := by
  cases hx with
  | nan => rfl
  | infinite s => rfl
  | @finite s m k value => rw [roundWhole, value, nearestNat_natCast, ← value, roundMagnitude_toRat]

theorem toRat_eq_natAbs {s : Bool} {m : Magnitude} {n : Int}
    (value : (finite s m).toRat? = some (n : Rat)) : m.toRat = n.natAbs := by
  have abs := congrArg (fun q : Rat => |q|) (Option.some.inj value)
  rw [abs_signed m.toRat_nonneg] at abs
  rw [abs, Nat.cast_natAbs, Int.cast_abs]

theorem whole_of_toRat? {x : Binary64} {n : Int} (value : x.toRat? = some (n : Rat)) : Whole x := by
  cases x with
  | nan => exact .nan
  | infinite s => exact .infinite s
  | finite s m => exact .finite s (toRat_eq_natAbs value)

end Binary64

end Calculator
