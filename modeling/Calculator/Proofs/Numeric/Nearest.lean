import Mathlib.Algebra.Order.Field.Rat
import Mathlib.Data.Rat.Floor
import Mathlib.Tactic.Linarith
import Calculator.Numeric.Nearest

/-!
# Laws of the nearest whole number

Under both rules the result is one of the two neighbours, a whole number is its own result, and a
larger number has no smaller result. Bounds by whole numbers therefore pass through the rounding. The
result is off by one half at most, and it is the only whole number that is nearer than that. With halves
going upward it is the nearest one away from zero, of which there is exactly one for every number of
either sign. Rounding to a multiple of a power of the base keeps whole numbers whole.
-/

namespace Calculator

theorem Tie.resolve_bounds (tie : Tie) (below : Nat) :
    below ≤ tie.resolve below ∧ tie.resolve below ≤ below + 1 := by
  cases tie with
  | toEven =>
    simp only [resolve]
    omega
  | upward => exact ⟨Nat.le_succ below, Nat.le_refl _⟩

theorem nearestNat_bounds (tie : Tie) (q : Rat) :
    q.floor.toNat ≤ nearestNat tie q ∧ nearestNat tie q ≤ q.floor.toNat + 1 := by
  have resolved := tie.resolve_bounds q.floor.toNat
  simp only [nearestNat]
  split
  · omega
  · split
    · omega
    · exact resolved

theorem floor_natCast (n : Nat) : (n : Rat).floor = n := by
  rw [← Int.cast_natCast, Rat.floor_intCast]

@[simp] theorem nearestNat_natCast (tie : Tie) (n : Nat) : nearestNat tie n = n := by
  simp [nearestNat, floor_natCast]

/-- A larger number has no smaller nearest whole number. -/
theorem nearestNat_mono (tie : Tie) {q r : Rat} (le : q ≤ r) :
    nearestNat tie q ≤ nearestNat tie r := by
  have floors : q.floor.toNat ≤ r.floor.toNat := Int.toNat_le_toNat (Rat.floor_monotone le)
  rcases Nat.lt_or_eq_of_le floors with less | equal
  · have upper := (nearestNat_bounds tie q).2
    have lower := (nearestNat_bounds tie r).1
    omega
  · -- On one interval between whole numbers the three cases come in order.
    have resolved := tie.resolve_bounds r.floor.toNat
    simp only [nearestNat, equal]
    split_ifs
    all_goals first | omega | (exfalso; linarith)

theorem nearestNat_le_of_le (tie : Tie) {q : Rat} {n : Nat} (le : q ≤ n) : nearestNat tie q ≤ n := by
  have mono := nearestNat_mono tie le
  rwa [nearestNat_natCast] at mono

theorem le_nearestNat_of_le (tie : Tie) {q : Rat} {n : Nat} (le : (n : Rat) ≤ q) :
    n ≤ nearestNat tie q := by
  have mono := nearestNat_mono tie le
  rwa [nearestNat_natCast] at mono

/-- A nonnegative number lies between the two neighbours that its rounding chooses from. -/
theorem floor_toNat_bounds {q : Rat} (nonneg : 0 ≤ q) :
    (q.floor.toNat : Rat) ≤ q ∧ q < q.floor.toNat + 1 := by
  have floor : ((q.floor.toNat : Nat) : Rat) = q.floor := by
    rw [← Int.cast_natCast, Int.toNat_of_nonneg (Rat.le_floor_iff.2 (by exact_mod_cast nonneg))]
  rw [floor]
  exact ⟨Rat.floor_le q, by exact_mod_cast Rat.lt_floor_add_one q⟩

/-- The nearest whole number is at most one half away. -/
theorem abs_nearestNat_sub_le (tie : Tie) {q : Rat} (nonneg : 0 ≤ q) :
    |(nearestNat tie q : Rat) - q| ≤ 1 / 2 := by
  obtain ⟨lower, upper⟩ := floor_toNat_bounds nonneg
  rw [abs_le]
  simp only [nearestNat]
  split_ifs with below above
  · constructor <;> linarith
  · push_cast
    constructor <;> linarith
  · -- At one half the rule may choose either neighbour.
    have resolved := tie.resolve_bounds q.floor.toNat
    have lowerCast : (q.floor.toNat : Rat) ≤ tie.resolve q.floor.toNat := by
      exact_mod_cast resolved.1
    have upperCast : (tie.resolve q.floor.toNat : Rat) ≤ q.floor.toNat + 1 := by
      exact_mod_cast resolved.2
    constructor <;> linarith

/-- The nearest multiple of a unit is at most half of the unit away. -/
theorem abs_nearestNat_mul_sub_le (tie : Tie) {q u : Rat} (nonneg : 0 ≤ q) (unit : 0 < u) :
    |nearestNat tie (q / u) * u - q| ≤ u / 2 := by
  have error := abs_nearestNat_sub_le tie (div_nonneg nonneg unit.le)
  have scaled : nearestNat tie (q / u) * u - q = (nearestNat tie (q / u) - q / u) * u := by
    rw [sub_mul, div_mul_cancel₀ _ unit.ne']
  rw [scaled, abs_mul, abs_of_pos unit]
  calc _ ≤ 1 / 2 * u := mul_le_mul_of_nonneg_right error unit.le
    _ = u / 2 := one_div_mul_eq_div 2 u

/-- Where halves go upward, a whole number takes the half below it and not the one above. -/
theorem nearestNat_upward_bounds {q : Rat} (nonneg : 0 ≤ q) :
    (nearestNat .upward q : Rat) - 1 / 2 ≤ q ∧ q < nearestNat .upward q + 1 / 2 := by
  obtain ⟨lower, upper⟩ := floor_toNat_bounds nonneg
  simp only [nearestNat, Tie.resolve]
  split_ifs with below above
  · constructor <;> linarith
  · push_cast
    constructor <;> linarith
  · push_cast
    constructor <;> linarith

theorem nearestNat_upward_eq_iff {q : Rat} (nonneg : 0 ≤ q) {n : Nat} :
    nearestNat .upward q = n ↔ (n : Rat) - 1 / 2 ≤ q ∧ q < n + 1 / 2 := by
  have bounds := nearestNat_upward_bounds nonneg
  constructor
  · rintro rfl
    exact bounds
  · rintro ⟨lower, upper⟩
    have less : (nearestNat .upward q : Rat) < n + 1 := by linarith
    have more : (n : Rat) < nearestNat .upward q + 1 := by linarith
    norm_cast at less more
    omega

/-- The whole number nearest to `q`, and of two equally near the one further from zero. -/
def NearestAway (q : Rat) (n : Int) : Prop :=
  |q - n| < 1 / 2 ∨ |q - n| = 1 / 2 ∧ |q| < |(n : Rat)|

theorem nearestAway_neg_iff {q : Rat} {n : Int} : NearestAway (-q) (-n) ↔ NearestAway q n := by
  have distance : |-q - ((-n : Int) : Rat)| = |q - n| := by
    rw [Int.cast_neg, ← neg_sub', abs_neg]
  rw [NearestAway, NearestAway, distance, abs_neg, Int.cast_neg, abs_neg]

/-- Of nonnegative numbers halves go upward. -/
theorem nearestAway_iff_of_nonneg {q : Rat} (nonneg : 0 ≤ q) {n : Int} :
    NearestAway q n ↔ n = nearestNat .upward q := by
  constructor
  · intro near
    have whole : 0 ≤ n := by
      have above : (-1 : Rat) < n := by
        rcases near with close | ⟨half, -⟩
        · have upper := (abs_lt.1 close).2
          linarith
        · have upper := (abs_le.1 half.le).2
          linarith
      have cast : -1 < n := by exact_mod_cast above
      omega
    obtain ⟨k, rfl⟩ := Int.eq_ofNat_of_zero_le whole
    rw [Nat.cast_inj, eq_comm, nearestNat_upward_eq_iff nonneg]
    rw [NearestAway, Int.cast_natCast] at near
    rcases near with close | ⟨half, further⟩
    · have bounds := abs_lt.1 close
      constructor <;> linarith
    · rw [abs_of_nonneg nonneg, abs_of_nonneg (Nat.cast_nonneg k)] at further
      rw [abs_of_nonpos (by linarith)] at half
      constructor <;> linarith
  · rintro rfl
    obtain ⟨lower, upper⟩ := nearestNat_upward_bounds nonneg
    rw [NearestAway, Int.cast_natCast]
    rcases lower.lt_or_eq with inside | half
    · exact .inl (abs_lt.2 (by constructor <;> linarith))
    · refine .inr ⟨?_, ?_⟩
      · rw [abs_of_nonpos (by linarith)]
        linarith
      · rw [abs_of_nonneg nonneg, abs_of_nonneg (Nat.cast_nonneg _)]
        linarith

/-- A natural number rounded to a multiple of a power is still natural. -/
theorem exists_nearestNat_mul_zpow (tie : Tie) {b : Nat} (base : 0 < b) (e : Int) (n : Nat) :
    ∃ k : Nat, nearestNat tie (n / (b : Rat) ^ e) * (b : Rat) ^ e = k := by
  rcases le_or_gt e 0 with fine | coarse
  · obtain ⟨places, rfl⟩ := Int.exists_eq_neg_ofNat fine
    have unit : (b : Rat) ^ places ≠ 0 := by positivity
    have scaled : (n : Rat) / (b : Rat) ^ (-(places : Int)) = ((n * b ^ places : Nat) : Rat) := by
      rw [zpow_neg, zpow_natCast, div_inv_eq_mul]
      push_cast
      rfl
    refine ⟨n, ?_⟩
    rw [scaled, nearestNat_natCast, zpow_neg, zpow_natCast]
    push_cast
    exact mul_inv_cancel_right₀ unit _
  · obtain ⟨places, rfl⟩ := Int.eq_ofNat_of_zero_le coarse.le
    refine ⟨nearestNat tie (n / (b : Rat) ^ (places : Int)) * b ^ places, ?_⟩
    push_cast
    rw [zpow_natCast]

/-- A whole number nearer than one half is the nearest one. -/
theorem nearestNat_eq_of_abs_sub_lt (tie : Tie) {q : Rat} {n : Nat} (nonneg : 0 ≤ q)
    (near : |q - n| < 1 / 2) : nearestNat tie q = n := by
  have error := abs_le.1 (abs_nearestNat_sub_le tie nonneg)
  have distance := abs_lt.1 near
  have upper : (nearestNat tie q : Rat) < n + 1 := by linarith
  have lower : (n : Rat) < nearestNat tie q + 1 := by linarith
  norm_cast at upper lower
  omega

end Calculator
