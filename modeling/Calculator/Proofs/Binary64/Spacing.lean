import Calculator.Proofs.Binary64.Rounding

/-!
# How far rounding moves a number

The value nearest to a number is a whole number of units of the spacing around it, and at most half
of a unit away. Between two neighbouring positions the middle therefore decides which of them is
taken. Where the spacing is that of a full coefficient, half of it is one part in `2 ^ 53`. An exact
product is divided back by its factor, and no other value is.
-/

namespace Calculator

/-- A full coefficient at the spacing of a binade, which may be the first one of the next binade. -/
theorem positionValue_add {coefficient binade : Nat} (upper : coefficient ≤ 0x20000000000000)
    (lower : binade ≠ 0 → 0x10000000000000 ≤ coefficient) :
    positionValue (coefficient + binade * 0x10000000000000) =
      coefficient * (2 : Rat) ^ ((binade : Int) - 1074) := by
  rcases Nat.lt_or_eq_of_le upper with inside | last
  · have same : positionBinade (coefficient + binade * 0x10000000000000) = binade := by
      rw [positionBinade]
      omega
    have factor : positionCoefficient (coefficient + binade * 0x10000000000000) = coefficient := by
      rw [positionCoefficient, same]
      omega
    rw [positionValue, same, factor]
  · subst last
    have next : positionBinade (0x20000000000000 + binade * 0x10000000000000) = binade + 1 := by
      rw [positionBinade]
      omega
    have factor : positionCoefficient (0x20000000000000 + binade * 0x10000000000000) =
        0x10000000000000 := by
      rw [positionCoefficient, next]
      omega
    have power : (2 : Rat) ^ (((binade + 1 : Nat) : Int) - 1074) =
        2 * (2 : Rat) ^ ((binade : Int) - 1074) := by
      rw [mul_comm, ← zpow_add_one₀ (by decide)]
      congr 1
      omega
    rw [positionValue, next, factor, power]
    push_cast
    ring

theorem neg_1074_le_spacingExponent (q : Rat) : -1074 ≤ spacingExponent q := le_max_right _ _

/-- The nearest value in units of the spacing. -/
theorem positionValue_nearestIndex {q : Rat} (pos : 0 < q) :
    positionValue (nearestIndex q) =
      nearestNat .toEven (q / (2 : Rat) ^ spacingExponent q) * (2 : Rat) ^ spacingExponent q := by
  have scaled := div_spacing_bounds pos
  have least := neg_1074_le_spacingExponent q
  have exponent : (((spacingExponent q + 1074).toNat : Nat) : Int) - 1074 = spacingExponent q := by
    omega
  rw [nearestIndex, if_neg (not_le.2 pos)]
  dsimp only
  rw [positionValue_add (nearestNat_le_of_le .toEven scaled.1), exponent]
  intro normal
  exact le_nearestNat_of_le .toEven (scaled.2 (by omega))

/-- Fewer than `2 ^ 53` units of a power of two are a value. -/
theorem positionValue_nearestIndex_mul_zpow {n : Nat} {e : Int} (few : n < 0x20000000000000)
    (least : -1074 ≤ e) :
    positionValue (nearestIndex (n * (2 : Rat) ^ e)) = n * (2 : Rat) ^ e := by
  rcases Nat.eq_zero_or_pos n with rfl | positive
  · rw [Nat.cast_zero, zero_mul, nearestIndex_zero, positionValue_zero]
  · have unit : (0 : Rat) < (2 : Rat) ^ e := zpow_pos (by decide) _
    have pos : (0 : Rat) < n * (2 : Rat) ^ e := mul_pos (Nat.cast_pos.2 positive) unit
    have coarse : spacingExponent (n * (2 : Rat) ^ e) ≤ e := by
      have below := mul_lt_mul_of_pos_right (Nat.cast_lt.2 few) unit
      rw [(binade_ends e).2, lt_zpow_iff 2 pos] at below
      rw [spacingExponent_eq pos]
      omega
    obtain ⟨k, finer⟩ := Int.eq_ofNat_of_zero_le (sub_nonneg.2 coarse)
    have units : n * (2 : Rat) ^ e / (2 : Rat) ^ spacingExponent (n * (2 : Rat) ^ e) =
        ((n * 2 ^ k : Nat) : Rat) := by
      rw [mul_div_assoc, ← zpow_sub₀ (by decide), finer, zpow_natCast]
      push_cast
      rfl
    rw [positionValue_nearestIndex pos, units, nearestNat_natCast, ← units,
      div_mul_cancel₀ _ (zpow_ne_zero _ (by decide))]

/-- Rounding moves a number by half of the spacing at most. -/
theorem abs_positionValue_nearestIndex_sub_le {q : Rat} (pos : 0 < q) :
    |positionValue (nearestIndex q) - q| ≤ (2 : Rat) ^ spacingExponent q / 2 := by
  rw [positionValue_nearestIndex pos]
  exact abs_nearestNat_mul_sub_le .toEven pos.le (zpow_pos (by decide) _)

/-- From the first full coefficient on, rounding moves a number by one part in `2 ^ 53` at most. -/
theorem abs_positionValue_nearestIndex_sub_le_div {q : Rat}
    (normal : (2 : Rat) ^ (-1022 : Int) ≤ q) :
    |positionValue (nearestIndex q) - q| ≤ q / 2 ^ 53 := by
  have pos : 0 < q := lt_of_lt_of_le (zpow_pos (by decide) _) normal
  have spacing : spacingExponent q = Int.log 2 q - 52 := by
    have exponent := (zpow_le_iff 2 pos).1 normal
    rw [spacingExponent_eq pos]
    omega
  have power : (2 : Rat) ^ Int.log 2 q ≤ q := (zpow_le_iff 2 pos).2 (le_refl _)
  refine (abs_positionValue_nearestIndex_sub_le pos).trans ?_
  rw [spacing, zpow_sub₀ (by decide)]
  calc (2 : Rat) ^ Int.log 2 q / (2 : Rat) ^ (52 : Int) / 2
      = (2 : Rat) ^ Int.log 2 q / 2 ^ 53 := by
        rw [div_div]
        norm_num
    _ ≤ q / 2 ^ 53 := div_le_div_of_nonneg_right power (by positivity)

/-- Rounding moves a number by one part in `2 ^ 53` and half of the least spacing at most. -/
theorem abs_positionValue_nearestIndex_sub_le_add {q : Rat} (nonneg : 0 ≤ q) :
    |positionValue (nearestIndex q) - q| ≤ q / 2 ^ 53 + (2 : Rat) ^ (-1075 : Int) := by
  have least : (0 : Rat) < (2 : Rat) ^ (-1075 : Int) := zpow_pos (by decide) _
  have parts : 0 ≤ q / 2 ^ 53 := div_nonneg nonneg (by norm_num)
  rcases le_or_gt ((2 : Rat) ^ (-1022 : Int)) q with normal | subnormal
  · exact (abs_positionValue_nearestIndex_sub_le_div normal).trans (le_add_of_nonneg_right least.le)
  · rcases nonneg.eq_or_lt with rfl | pos
    · rw [nearestIndex_zero, positionValue_zero, sub_zero, abs_zero]
      exact add_nonneg parts least.le
    · have spacing : spacingExponent q = -1074 := by
        have log := (lt_zpow_iff 2 pos).1 subnormal
        rw [spacingExponent_eq pos]
        omega
      have half : (2 : Rat) ^ spacingExponent q / 2 = (2 : Rat) ^ (-1075 : Int) := by
        rw [spacing, div_eq_mul_inv, ← zpow_sub_one₀ (by decide)]
        norm_num
      have error := abs_positionValue_nearestIndex_sub_le pos
      rw [half] at error
      exact error.trans (le_add_of_nonneg_left parts)

/-- The value at the first position with a full coefficient. -/
theorem positionValue_first_normal : positionValue 0x10000000000000 = (2 : Rat) ^ (-1022 : Int) := by
  decide +kernel

theorem normal_positionValue_nearestIndex {q : Rat} (normal : (2 : Rat) ^ (-1022 : Int) ≤ q) :
    (2 : Rat) ^ (-1022 : Int) ≤ positionValue (nearestIndex q) := by
  rw [← positionValue_first_normal] at normal ⊢
  have mono := positionValue_nearestIndex_mono normal
  rwa [nearestIndex_positionValue] at mono

theorem normal_of_lt {q : Rat} (lt : (2 : Rat) ^ (-1022 : Int) < positionValue (nearestIndex q)) :
    (2 : Rat) ^ (-1022 : Int) ≤ q := by
  by_contra subnormal
  rw [← positionValue_first_normal] at subnormal lt
  have mono := positionValue_nearestIndex_mono (not_le.1 subnormal).le
  rw [nearestIndex_positionValue] at mono
  exact absurd lt (not_lt.2 mono)

theorem normal_of_one_le {q : Rat} (le : 1 ≤ positionValue (nearestIndex q)) :
    (2 : Rat) ^ (-1022 : Int) ≤ q :=
  normal_of_lt (lt_of_lt_of_le (zpow_lt_one_of_neg₀ (by norm_num) (by norm_num)) le)

/-- Between a position and the next the nearest one is at most half of their distance away. -/
theorem abs_sub_le_of_between {index : Nat} {q : Rat} (pos : 0 < q)
    (lower : positionValue index ≤ q) (upper : q < positionValue (index + 1)) :
    |positionValue (nearestIndex q) - q| ≤
      (2 : Rat) ^ ((positionBinade index : Int) - 1074) / 2 := by
  rw [← spacingExponent_of_between pos lower upper]
  exact abs_positionValue_nearestIndex_sub_le pos

/-- Past the middle behind a position a number is rounded to a later one. -/
theorem lt_nearestIndex_of_lt {index : Nat} {q : Rat}
    (past : positionValue index + (2 : Rat) ^ ((positionBinade index : Int) - 1074) / 2 < q) :
    index < nearestIndex q := by
  have unit : (0 : Rat) < (2 : Rat) ^ ((positionBinade index : Int) - 1074) :=
    zpow_pos (by decide) _
  have lower : positionValue index < q := by linarith
  have pos : 0 < q := by
    have first := positionValue_strictMono.monotone (Nat.zero_le index)
    rw [positionValue_zero] at first
    linarith
  by_contra reached
  have least := nearestIndex_mono lower.le
  rw [nearestIndex_positionValue] at least
  have same : nearestIndex q = index := by omega
  have upper : q < positionValue (index + 1) := by
    by_contra beyond
    have later := nearestIndex_mono (not_lt.1 beyond)
    rw [nearestIndex_positionValue] at later
    omega
  have error := abs_le.1 (abs_sub_le_of_between pos lower.le upper)
  rw [same] at error
  linarith

/-- Before the middle behind a position a number is not rounded to a later one. -/
theorem nearestIndex_le_of_lt {index : Nat} {q : Rat}
    (before : q < positionValue index + (2 : Rat) ^ ((positionBinade index : Int) - 1074) / 2) :
    nearestIndex q ≤ index := by
  have unit : (0 : Rat) < (2 : Rat) ^ ((positionBinade index : Int) - 1074) :=
    zpow_pos (by decide) _
  have next := positionValue_succ index
  rcases le_or_gt q (positionValue index) with le | lower
  · have least := nearestIndex_mono le
    rwa [nearestIndex_positionValue] at least
  · have pos : 0 < q := by
      have first := positionValue_strictMono.monotone (Nat.zero_le index)
      rw [positionValue_zero] at first
      linarith
    have upper : q < positionValue (index + 1) := by linarith
    have bound := nearestIndex_mono upper.le
    rw [nearestIndex_positionValue] at bound
    by_contra later
    have same : nearestIndex q = index + 1 := by omega
    have error := abs_le.1 (abs_sub_le_of_between pos lower.le upper)
    rw [same, next] at error
    linarith

/-- The end of a step is at most `2 ^ 53` of the step. -/
theorem positionValue_succ_le (index : Nat) :
    positionValue (index + 1) ≤
      (0x20000000000000 : Nat) * (2 : Rat) ^ ((positionBinade index : Int) - 1074) := by
  have last : ((positionCoefficient index + 1 : Nat) : Rat) ≤ (0x20000000000000 : Nat) :=
    Nat.cast_le.2 (positionCoefficient_lt index)
  have unit : (0 : Rat) < (2 : Rat) ^ ((positionBinade index : Int) - 1074) :=
    zpow_pos (by decide) _
  have scaled := mul_le_mul_of_nonneg_right last unit.le
  rw [positionValue_succ, positionValue]
  push_cast at scaled ⊢
  linarith

/-- A number that is off from a value by less than one part in `2 ^ 54` is rounded to it. -/
theorem nearestIndex_eq_of_near {index : Nat} {q : Rat} (positive : 0 < index)
    (near : |q - positionValue index| < positionValue index / 2 ^ 54) : nearestIndex q = index := by
  obtain ⟨before, rfl⟩ := Nat.exists_eq_add_one.2 positive
  obtain ⟨lower, upper⟩ := abs_lt.1 near
  have here := positionValue_succ_le before
  have next := positionValue_succ_le (before + 1)
  have less := positionValue_strictMono (Nat.lt_succ_self (before + 1))
  have step := positionValue_succ before
  push_cast at here next
  apply le_antisymm
  · apply nearestIndex_le_of_lt
    linarith
  · apply Nat.succ_le_of_lt
    apply lt_nearestIndex_of_lt
    linarith

/-- A factor that takes a full position below the end of a step scales its spacing to less than twice
that step. -/
theorem spacing_mul_lt {i j : Nat} {factor : Rat} (pos : 0 < factor) (normal : positionBinade i ≠ 0)
    (lt : positionValue i * factor < positionValue (j + 1)) :
    factor * (2 : Rat) ^ ((positionBinade i : Int) - 1074) <
      2 * (2 : Rat) ^ ((positionBinade j : Int) - 1074) := by
  have full : ((0x10000000000000 : Nat) : Rat) ≤ positionCoefficient i :=
    Nat.cast_le.2 (le_positionCoefficient i normal)
  have last : ((positionCoefficient j + 1 : Nat) : Rat) ≤ (0x20000000000000 : Nat) :=
    Nat.cast_le.2 (positionCoefficient_lt j)
  rw [positionValue_succ, positionValue, positionValue] at lt
  have unit : (0 : Rat) < (2 : Rat) ^ ((positionBinade i : Int) - 1074) := zpow_pos (by decide) _
  have unit' : (0 : Rat) < (2 : Rat) ^ ((positionBinade j : Int) - 1074) := zpow_pos (by decide) _
  generalize (2 : Rat) ^ ((positionBinade i : Int) - 1074) = u at lt unit ⊢
  generalize (2 : Rat) ^ ((positionBinade j : Int) - 1074) = v at lt unit' ⊢
  have lower := mul_le_mul_of_nonneg_right full (mul_pos unit pos).le
  have upper := mul_le_mul_of_nonneg_right last unit'.le
  push_cast at lower upper
  linarith

section Quotient

variable {i j t : Nat} {factor : Rat}

/-- The quotients of the values before an exact product lie before the middle before the value. -/
theorem nearestIndex_div_lt (pos : 0 < factor) (normal : positionBinade (i - 1) ≠ 0)
    (exact : positionValue j = positionValue i * factor) (less : t < j) :
    nearestIndex (positionValue t / factor) < i := by
  have nonzero : 0 < i := by
    rw [positionBinade] at normal
    omega
  obtain ⟨i, rfl⟩ := Nat.exists_eq_add_one.2 nonzero
  obtain ⟨j, rfl⟩ := Nat.exists_eq_add_one.2 (Nat.zero_lt_of_lt less)
  rw [Nat.add_sub_cancel] at normal
  have below : positionValue i * factor < positionValue (j + 1) := by
    rw [exact]
    exact mul_lt_mul_of_pos_right (positionValue_strictMono (Nat.lt_succ_self i)) pos
  have gap := spacing_mul_lt pos normal below
  have most := positionValue_strictMono.monotone (Nat.le_of_lt_succ less)
  have bound : positionValue t / factor <
      positionValue i + (2 : Rat) ^ ((positionBinade i : Int) - 1074) / 2 := by
    rw [positionValue_succ, positionValue_succ, add_mul] at exact
    rw [div_lt_iff₀ pos, add_mul]
    linarith
  exact Nat.lt_succ_of_le (nearestIndex_le_of_lt bound)

/-- The quotients of the values behind an exact product lie past the middle behind the value. -/
theorem lt_nearestIndex_div (pos : 0 < factor) (normal : positionBinade i ≠ 0)
    (exact : positionValue j = positionValue i * factor) (more : j < t) :
    i < nearestIndex (positionValue t / factor) := by
  have above : positionValue i * factor < positionValue (j + 1) := by
    rw [← exact]
    exact positionValue_strictMono (Nat.lt_succ_self j)
  have gap := spacing_mul_lt pos normal above
  have least := positionValue_strictMono.monotone (Nat.succ_le_of_lt more)
  have bound : positionValue i + (2 : Rat) ^ ((positionBinade i : Int) - 1074) / 2 <
      positionValue t / factor := by
    rw [positionValue_succ] at least
    rw [lt_div_iff₀ pos, add_mul]
    linarith
  exact lt_nearestIndex_of_lt bound

/-- An exact product is the only value whose quotient by the factor is rounded to the value. -/
theorem eq_of_nearestIndex_div_eq (pos : 0 < factor) (normal : positionBinade (i - 1) ≠ 0)
    (exact : positionValue j = positionValue i * factor)
    (same : nearestIndex (positionValue t / factor) = i) : t = j := by
  have full : positionBinade i ≠ 0 := by
    rw [positionBinade] at normal ⊢
    omega
  rcases lt_trichotomy t j with less | equal | more
  · exact absurd same (nearestIndex_div_lt pos normal exact less).ne
  · exact equal
  · exact absurd same (lt_nearestIndex_div pos full exact more).ne'

end Quotient

end Calculator
