import Calculator.Binary64.Places
import Calculator.Proofs.Binary64.Rounding

/-!
# Operations that stay finite

A rounded number is finite exactly if its position is not past the last one. The nearest whole number
of a finite value is finite, because the largest value is whole, and so is a quotient by a factor of
at least one. The powers of ten are such factors: every product of numbers of at least one is again
at least one, or it is the positive infinity.
-/

namespace Calculator

namespace Magnitude

/-- The magnitude of one. -/
def one : Magnitude := ⟨0x3FF0000000000000, by decide⟩

/-- The last magnitude. -/
def largest : Magnitude := ⟨0x7FEFFFFFFFFFFFFF, by decide⟩

theorem one_toRat : one.toRat = 1 := by decide +kernel

/-- The last magnitude is a whole number. -/
theorem largest_toRat : largest.toRat = ((0x1FFFFFFFFFFFFF * 2 ^ 971 : Nat) : Rat) := by
  decide +kernel

theorem zero_toRat : zero.toRat = 0 := by
  rw [toRat_eq]
  exact positionValue_zero

theorem toRat_le_largest (m : Magnitude) : m.toRat ≤ largest.toRat :=
  toRat_le_toRat.2 (Nat.le_of_lt_succ m.index_lt)

theorem toRat_le_two_zpow (m : Magnitude) : m.toRat ≤ (2 : Rat) ^ (1024 : Int) := by
  have last : largest.toRat ≤ (2 : Rat) ^ (1024 : Int) := by decide +kernel
  exact m.toRat_le_largest.trans last

end Magnitude

namespace Binary64

open Magnitude

theorem toRat?_eq_none {x : Binary64} (overflow : x.isFinite = false) : x.toRat? = none := by
  cases x with
  | nan => rfl
  | infinite s => rfl
  | finite s m => cases overflow

theorem abs_signed {s : Bool} {q : Rat} (nonneg : 0 ≤ q) : |signed s q| = q := by
  cases s with
  | false => exact abs_of_nonneg nonneg
  | true => exact (abs_neg q).trans (abs_of_nonneg nonneg)

theorem signed_zero (s : Bool) : signed s 0 = 0 := by
  cases s with
  | false => rfl
  | true => exact neg_zero

theorem signed_injective (s : Bool) : Function.Injective (signed s) := by
  intro q r same
  cases s with
  | false => exact same
  | true => exact neg_injective same

theorem signed_mul (s : Bool) (q r : Rat) : signed s (q * r) = signed s q * r := by
  cases s with
  | false => rfl
  | true => exact (neg_mul q r).symm

theorem exists_intCast_signed (s : Bool) (n : Nat) : ∃ k : Int, (k : Rat) = signed s n := by
  cases s with
  | false => exact ⟨n, by rw [signed, if_neg Bool.false_ne_true, Int.cast_natCast]⟩
  | true => exact ⟨-n, by rw [signed, if_pos rfl, Int.cast_neg, Int.cast_natCast]⟩

theorem finite_toRat?_inj {s : Bool} {m n : Magnitude} :
    (finite s m).toRat? = (finite s n).toRat? ↔ m = n := by
  constructor
  · intro same
    exact toRat_injective (signed_injective s (Option.some.inj same))
  · intro same
    rw [same]

theorem isFinite_ofIndex_iff {s : Bool} {index : Nat} :
    (ofIndex s index).isFinite = true ↔ index < 0x7FF0000000000000 := by
  unfold ofIndex
  split
  · rename_i below
    exact iff_of_true rfl below
  · rename_i past
    exact iff_of_false Bool.false_ne_true past

theorem isFinite_roundMagnitude_iff {s : Bool} {q : Rat} :
    (roundMagnitude s q).isFinite = true ↔ nearestIndex q < 0x7FF0000000000000 :=
  isFinite_ofIndex_iff

theorem roundMagnitude_eq_finite_iff {s t : Bool} {q : Rat} {m : Magnitude} :
    roundMagnitude s q = finite t m ↔ s = t ∧ nearestIndex q = m.index := by
  unfold roundMagnitude ofIndex
  split
  · rw [finite.injEq, Magnitude.mk.injEq]
  · rename_i past
    refine iff_of_false (fun made => ?_) fun same => past ?_
    · cases made
    · rw [same.2]
      exact m.index_lt

theorem roundMagnitude_cases (s : Bool) (q : Rat) :
    (∃ m, roundMagnitude s q = finite s m) ∨ roundMagnitude s q = infinite s := by
  unfold roundMagnitude ofIndex
  split
  · exact .inl ⟨_, rfl⟩
  · exact .inr rfl

/-- A magnitude is nearest to its own value. -/
theorem roundMagnitude_toRat (s : Bool) (m : Magnitude) : roundMagnitude s m.toRat = finite s m :=
  roundMagnitude_eq_finite_iff.2 ⟨rfl, nearestIndex_toRat m⟩

theorem roundMagnitude_zero (s : Bool) : roundMagnitude s 0 = finite s .zero :=
  roundMagnitude_eq_finite_iff.2 ⟨rfl, nearestIndex_zero⟩

theorem toRat?_zero (s : Bool) : (finite s .zero).toRat? = some ((0 : Int) : Rat) := by
  rw [toRat?, zero_toRat, signed_zero, Int.cast_zero]

/-- The value nearest to a signed magnitude, also to zero if that takes the same sign. -/
theorem nearest_signed (s : Bool) {q : Rat} (nonneg : 0 ≤ q) :
    nearest s (signed s q) = roundMagnitude s q := by
  rcases nonneg.eq_or_lt with rfl | pos
  · rw [signed_zero, roundMagnitude_zero, nearest, if_pos rfl]
  · cases s with
    | false =>
      rw [signed, if_neg Bool.false_ne_true, nearest, if_neg pos.ne', if_neg (not_lt.2 nonneg)]
    | true =>
      rw [signed, if_pos rfl, nearest, if_neg (neg_ne_zero.2 pos.ne'), if_pos (neg_lt_zero.2 pos),
        neg_neg]

/-- A value other than zero is nearest to its own number. -/
theorem nearest_eq_of_toRat? {x : Binary64} {q : Rat} (value : x.toRat? = some q) (nonzero : q ≠ 0)
    (zeroNegative : Bool) : nearest zeroNegative q = x := by
  cases x with
  | nan => cases value
  | infinite s => cases value
  | finite s m =>
    have own := nearest_signed s m.toRat_nonneg
    rw [Option.some.inj value, roundMagnitude_toRat, nearest, if_neg nonzero] at own
    rwa [nearest, if_neg nonzero]

theorem toRat?_roundMagnitude_eq_iff {s : Bool} {q : Rat} {m : Magnitude} :
    (roundMagnitude s q).toRat? = (finite s m).toRat? ↔ nearestIndex q = m.index := by
  unfold roundMagnitude ofIndex
  split
  · rw [finite_toRat?_inj, Magnitude.mk.injEq]
  · rename_i past
    refine iff_of_false (fun made => ?_) fun same => past ?_
    · cases made
    · rw [same]
      exact m.index_lt

/-- A number that does not exceed a magnitude is rounded to a finite one. -/
theorem isFinite_roundMagnitude_of_le {s : Bool} {q : Rat} {m : Magnitude} (le : q ≤ m.toRat) :
    (roundMagnitude s q).isFinite = true :=
  isFinite_roundMagnitude_iff.2 (Nat.lt_of_le_of_lt (m.nearestIndex_le_of_le le) m.index_lt)

/-- A number past the last position exceeds the last magnitude. -/
theorem largest_lt_of_past {q : Rat} (past : 0x7FF0000000000000 ≤ nearestIndex q) :
    largest.toRat < q := by
  by_contra bounded
  have position := largest.nearestIndex_le_of_le (not_lt.1 bounded)
  exact absurd (past.trans position) (Nat.not_le.2 largest.index_lt)

/-- The nearest whole number of a magnitude does not exceed the last magnitude. -/
theorem isFinite_roundWhole (x : Binary64) : x.roundWhole.isFinite = x.isFinite := by
  cases x with
  | nan => rfl
  | infinite s => rfl
  | finite s m =>
    have below : m.toRat ≤ ((0x1FFFFFFFFFFFFF * 2 ^ 971 : Nat) : Rat) := by
      rw [← largest_toRat]
      exact m.toRat_le_largest
    have whole : (nearestNat .upward m.toRat : Rat) ≤ largest.toRat := by
      rw [largest_toRat]
      exact Nat.cast_le.2 (nearestNat_le_of_le .upward below)
    exact isFinite_roundMagnitude_of_le whole

theorem isFinite_infinite_mul (s : Bool) (y : Binary64) : ((infinite s).mul y).isFinite = false := by
  cases y with
  | nan => rfl
  | infinite t => rfl
  | finite t n =>
    rw [mul]
    split
    · rfl
    · rfl

theorem isFinite_mul_infinite (x : Binary64) (t : Bool) : (x.mul (infinite t)).isFinite = false := by
  cases x with
  | nan => rfl
  | infinite s => rfl
  | finite s m =>
    rw [mul]
    split
    · rfl
    · rfl

/-- A finite product has finite factors. -/
theorem isFinite_of_isFinite_mul {x y : Binary64} (finite : (x.mul y).isFinite = true) :
    x.isFinite = true ∧ y.isFinite = true := by
  cases x with
  | nan => cases finite
  | infinite s => exact absurd (finite.symm.trans (isFinite_infinite_mul s y)) (by decide)
  | finite s m =>
    cases y with
    | nan => cases finite
    | infinite t => exact absurd (finite.symm.trans (isFinite_mul_infinite _ t)) (by decide)
    | finite t n => exact ⟨rfl, rfl⟩

/-- The values from one on. -/
inductive AtLeastOne : Binary64 → Prop where
  | infinite : AtLeastOne (.infinite false)
  | finite {m : Magnitude} (le : 1 ≤ m.toRat) : AtLeastOne (.finite false m)

theorem atLeastOne_roundMagnitude {q : Rat} (le : 1 ≤ q) :
    AtLeastOne (roundMagnitude false q) := by
  rw [← one_toRat] at le
  have position := one.le_nearestIndex_of_le le
  unfold roundMagnitude ofIndex
  split
  · refine .finite ?_
    rw [← one_toRat]
    exact toRat_le_toRat.2 position
  · exact .infinite

theorem atLeastOne_ofInt {n : Int} (pos : 1 ≤ n) : AtLeastOne (ofInt n) := by
  have le : (1 : Rat) ≤ (n : Rat) := by exact_mod_cast pos
  rw [ofInt, nearest, if_neg (by linarith), if_neg (by linarith)]
  exact atLeastOne_roundMagnitude le

theorem index_ne_zero_of_one_le {m : Magnitude} (le : 1 ≤ m.toRat) : m.index ≠ 0 :=
  (toRat_pos_iff.1 (lt_of_lt_of_le (by decide) le)).ne'

/-- The rounded product of two such values is one. -/
theorem AtLeastOne.mul {x y : Binary64} (hx : AtLeastOne x) (hy : AtLeastOne y) :
    AtLeastOne (x.mul y) := by
  cases hx with
  | infinite =>
    cases hy with
    | infinite => exact .infinite
    | finite le =>
      rw [Binary64.mul, if_neg (index_ne_zero_of_one_le le)]
      exact .infinite
  | finite le =>
    cases hy with
    | infinite =>
      rw [Binary64.mul, if_neg (index_ne_zero_of_one_le le)]
      exact .infinite
    | finite le' => exact atLeastOne_roundMagnitude (one_le_mul_of_one_le_of_one_le le le')

/-- Every round of the repeated squaring keeps both the product and the square. -/
theorem AtLeastOne.mulPow {r a : Binary64} (hr : AtLeastOne r) (ha : AtLeastOne a) (n : Nat) :
    AtLeastOne (mulPow r a n) := by
  fun_induction Binary64.mulPow r a n with
  | case1 => exact hr
  | case2 r a n _ ih =>
    refine ih ?_ (ha.mul ha)
    split
    · exact hr.mul ha
    · exact hr

theorem atLeastOne_powerOfTen (n : Nat) : AtLeastOne (powerOfTen n) :=
  (atLeastOne_ofInt (by decide)).mulPow (atLeastOne_ofInt (by decide)) n

theorem finite_mul (s : Bool) (m f : Magnitude) :
    (finite s m).mul (finite false f) = roundMagnitude s (m.toRat * f.toRat) := by
  rw [mul, Bool.bne_false]

theorem finite_div (s : Bool) (m : Magnitude) {f : Magnitude} (le : 1 ≤ f.toRat) :
    (finite s m).div (finite false f) = roundMagnitude s (m.toRat / f.toRat) := by
  rw [div, if_neg (index_ne_zero_of_one_le le), Bool.bne_false]

theorem powerOfTen_cases (places : Nat) :
    powerOfTen places = infinite false ∨ ∃ f, powerOfTen places = finite false f ∧ 1 ≤ toRat f := by
  have atLeastOne := atLeastOne_powerOfTen places
  generalize powerOfTen places = factor at atLeastOne
  cases atLeastOne with
  | infinite => exact .inl rfl
  | finite le => exact .inr ⟨_, rfl, le⟩

/-- A quotient by a finite factor of at least one is no larger than the dividend. -/
theorem isFinite_div_of_atLeastOne (x : Binary64) {factor : Binary64} (le : AtLeastOne factor)
    (finite : factor.isFinite = true) : (x.div factor).isFinite = x.isFinite := by
  cases le with
  | infinite => cases finite
  | @finite n le =>
    cases x with
    | nan => rfl
    | infinite s => rfl
    | finite s m =>
      have pos : (0 : Rat) < n.toRat := lt_of_lt_of_le (by decide) le
      have smaller : m.toRat / n.toRat ≤ m.toRat := div_le_self m.toRat_nonneg le
      rw [finite_div s m le]
      exact isFinite_roundMagnitude_of_le smaller

end Binary64

end Calculator
