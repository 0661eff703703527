import Calculator.Proofs.Binary64.Position

/-!
# Rounding to the nearest position

Rounding is monotone: on one binade because rounding to whole numbers is, and from one binade to the
next because the results of a binade lie between its first position and the first of the next.
-/

namespace Calculator

theorem nearestIndex_zero : nearestIndex 0 = 0 := if_pos (le_refl _)

theorem spacingExponent_eq {q : Rat} (pos : 0 < q) :
    spacingExponent q = max (Int.log 2 q - 52) (-1074) := by
  rw [spacingExponent, binade_eq_log pos]

/-- Units of the spacing `2 ^ e` at both ends of a binade. -/
theorem binade_ends (e : Int) :
    ((0x10000000000000 : Nat) : Rat) * (2 : Rat) ^ e = (2 : Rat) ^ (e + 52) ∧
      ((0x20000000000000 : Nat) : Rat) * (2 : Rat) ^ e = (2 : Rat) ^ (e + 53) := by
  constructor
  · rw [zpow_add₀ (by decide), mul_comm]
    norm_num
  · rw [zpow_add₀ (by decide), mul_comm]
    norm_num

/-- A number in units of its spacing, at most `2 ^ 53`, and at least `2 ^ 52` if it is not
subnormal. -/
theorem div_spacing_bounds {q : Rat} (pos : 0 < q) :
    q / (2 : Rat) ^ spacingExponent q ≤ (0x20000000000000 : Nat) ∧
      (spacingExponent q ≠ -1074 →
        ((0x10000000000000 : Nat) : Rat) ≤ q / (2 : Rat) ^ spacingExponent q) := by
  have spacing := spacingExponent_eq pos
  have unit : (0 : Rat) < (2 : Rat) ^ spacingExponent q := zpow_pos (by decide) _
  constructor
  · have below : q < (2 : Rat) ^ (spacingExponent q + 53) := (lt_zpow_iff 2 pos).2 (by omega)
    rw [div_le_iff₀ unit, (binade_ends _).2]
    exact below.le
  · intro normal
    rw [le_div_iff₀ unit, (binade_ends _).1]
    exact (zpow_le_iff 2 pos).2 (by omega)

/-- The results of a binade lie between its first position and the first of the next one. -/
theorem nearestIndex_bounds {q : Rat} (pos : 0 < q) :
    nearestIndex q ≤ ((spacingExponent q + 1074).toNat + 2) * 0x10000000000000 ∧
      (spacingExponent q ≠ -1074 →
        ((spacingExponent q + 1074).toNat + 1) * 0x10000000000000 ≤ nearestIndex q) := by
  have scaled := div_spacing_bounds pos
  rw [nearestIndex, if_neg (not_le.2 pos)]
  constructor
  · have bound := nearestNat_le_of_le .toEven scaled.1
    dsimp only
    omega
  · intro normal
    have bound := le_nearestNat_of_le .toEven (scaled.2 normal)
    dsimp only
    omega

/-- A larger number has no smaller nearest position. -/
theorem nearestIndex_mono {q r : Rat} (le : q ≤ r) : nearestIndex q ≤ nearestIndex r := by
  by_cases pos : 0 < q
  · have pos' : 0 < r := lt_of_lt_of_le pos le
    have exponents : spacingExponent q ≤ spacingExponent r := by
      have logs := Int.log_mono_right (b := 2) pos le
      rw [spacingExponent_eq pos, spacingExponent_eq pos']
      omega
    rcases lt_or_eq_of_le exponents with less | equal
    · have least : -1074 ≤ spacingExponent q := by
        rw [spacingExponent_eq pos]
        omega
      have upper := (nearestIndex_bounds pos).1
      have lower := (nearestIndex_bounds pos').2 (by omega)
      omega
    · have scaled : q / (2 : Rat) ^ spacingExponent r ≤ r / (2 : Rat) ^ spacingExponent r :=
        div_le_div_of_nonneg_right le (zpow_pos (by decide) _).le
      rw [nearestIndex, nearestIndex, if_neg (not_le.2 pos), if_neg (not_le.2 pos'), equal]
      exact Nat.add_le_add_right (nearestNat_mono .toEven scaled) _
  · rw [nearestIndex, if_pos (not_lt.1 pos)]
    exact Nat.zero_le _

theorem positionValue_nearestIndex_mono {q r : Rat} (le : q ≤ r) :
    positionValue (nearestIndex q) ≤ positionValue (nearestIndex r) :=
  positionValue_strictMono.monotone (nearestIndex_mono le)

/-- The spacing between a position and the next. -/
theorem spacingExponent_of_between {index : Nat} {q : Rat} (pos : 0 < q)
    (lower : positionValue index ≤ q) (upper : q < positionValue (index + 1)) :
    spacingExponent q = (positionBinade index : Int) - 1074 := by
  have unit : (0 : Rat) < (2 : Rat) ^ ((positionBinade index : Int) - 1074) :=
    zpow_pos (by decide) _
  have above : q < ((0x20000000000000 : Nat) : Rat) *
      (2 : Rat) ^ ((positionBinade index : Int) - 1074) := by
    have next : ((positionCoefficient index + 1 : Nat) : Rat) ≤ (0x20000000000000 : Nat) :=
      Nat.cast_le.2 (positionCoefficient_lt index)
    have scaled := mul_le_mul_of_nonneg_right next unit.le
    rw [positionValue_succ, positionValue] at upper
    push_cast at scaled upper ⊢
    linarith
  rw [(binade_ends _).2, lt_zpow_iff 2 pos] at above
  rw [spacingExponent_eq pos]
  by_cases subnormal : positionBinade index = 0
  · omega
  · have full : ((0x10000000000000 : Nat) : Rat) ≤ positionCoefficient index :=
      Nat.cast_le.2 (le_positionCoefficient index subnormal)
    have below := (mul_le_mul_of_nonneg_right full unit.le).trans lower
    rw [(binade_ends _).1, zpow_le_iff 2 pos] at below
    omega

/-- The spacing around the value at a position is that of its binade. -/
theorem spacingExponent_positionValue {index : Nat} (pos : 0 < index) :
    spacingExponent (positionValue index) = (positionBinade index : Int) - 1074 :=
  spacingExponent_of_between (positionValue_pos pos) (le_refl _)
    (positionValue_strictMono (Nat.lt_succ_self index))

/-- The value at a position is nearest to it. -/
theorem nearestIndex_positionValue (index : Nat) : nearestIndex (positionValue index) = index := by
  rcases Nat.eq_zero_or_pos index with rfl | pos
  · rw [positionValue_zero, nearestIndex_zero]
  · have unit : (2 : Rat) ^ ((positionBinade index : Int) - 1074) ≠ 0 := zpow_ne_zero _ (by decide)
    have scaled : positionValue index / (2 : Rat) ^ ((positionBinade index : Int) - 1074) =
        positionCoefficient index := mul_div_cancel_right₀ _ unit
    have offset : ((positionBinade index : Int) - 1074 + 1074).toNat = positionBinade index := by
      omega
    rw [nearestIndex, if_neg (not_le.2 (positionValue_pos pos)), spacingExponent_positionValue pos]
    dsimp only
    rw [scaled, offset, nearestNat_natCast, positionCoefficient_add]

namespace Magnitude

@[simp] theorem nearestIndex_toRat (m : Magnitude) : nearestIndex m.toRat = m.index := by
  rw [m.toRat_eq, nearestIndex_positionValue]

theorem toRat_le_toRat {m n : Magnitude} : m.toRat ≤ n.toRat ↔ m.index ≤ n.index := by
  rw [m.toRat_eq, n.toRat_eq]
  exact positionValue_strictMono.le_iff_le

theorem toRat_injective : Function.Injective toRat := by
  intro m m' same
  have position := congrArg nearestIndex same
  rw [nearestIndex_toRat, nearestIndex_toRat] at position
  rwa [Magnitude.mk.injEq]

theorem toRat_nonneg (m : Magnitude) : 0 ≤ m.toRat := by
  rw [m.toRat_eq, ← positionValue_zero]
  exact positionValue_strictMono.monotone (Nat.zero_le _)

theorem toRat_pos_iff {m : Magnitude} : 0 < m.toRat ↔ 0 < m.index := by
  rw [m.toRat_eq, ← positionValue_zero]
  exact positionValue_strictMono.lt_iff_lt

theorem nearestIndex_le_of_le (m : Magnitude) {q : Rat} (le : q ≤ m.toRat) :
    nearestIndex q ≤ m.index := by
  have mono := nearestIndex_mono le
  rwa [nearestIndex_toRat] at mono

theorem le_nearestIndex_of_le (m : Magnitude) {q : Rat} (le : m.toRat ≤ q) :
    m.index ≤ nearestIndex q := by
  have mono := nearestIndex_mono le
  rwa [nearestIndex_toRat] at mono

end Magnitude

end Calculator
