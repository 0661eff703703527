import Calculator.Binary64.Basic

/-!
# The order of binary64 values

Numbers compare as their exact values, so that a zero of one sign is neither below nor above the other.
Every number lies between the infinities, and nan compares with nothing, not even with itself.
-/

namespace Calculator.Binary64

/-- `x` is not above `y`, and neither is nan. -/
def le : Binary64 → Binary64 → Bool
  | nan, _ | _, nan => false
  | infinite true, _ | _, infinite false => true
  | infinite false, _ | _, infinite true => false
  | finite s m, finite t n => signed s m.toRat ≤ signed t n.toRat

/-- `x` is below `y`. -/
def lt (x y : Binary64) : Bool :=
  x.le y && !y.le x

instance instLEBinary64 : LE Binary64 := ⟨fun x y => x.le y = true⟩

instance instLTBinary64 : LT Binary64 := ⟨fun x y => x.lt y = true⟩

instance instDecidableLEBinary64 (x y : Binary64) : Decidable (x ≤ y) :=
  inferInstanceAs (Decidable (x.le y = true))

instance instDecidableLTBinary64 (x y : Binary64) : Decidable (x < y) :=
  inferInstanceAs (Decidable (x.lt y = true))

theorem infinite_true_le_iff {x : Binary64} : infinite true ≤ x ↔ x ≠ nan := by
  cases x with
  | nan => exact iff_of_false nofun fun other => other rfl
  | infinite s => exact iff_of_true rfl nofun
  | finite s m => exact iff_of_true rfl nofun

theorem le_infinite_false_iff {x : Binary64} : x ≤ infinite false ↔ x ≠ nan := by
  cases x with
  | nan => exact iff_of_false nofun fun other => other rfl
  | infinite s => cases s <;> exact iff_of_true rfl nofun
  | finite s m => exact iff_of_true rfl nofun

/-- Finite values compare as their numbers. -/
theorem le_iff_of_toRat? {x y : Binary64} {q r : Rat} (hx : x.toRat? = some q)
    (hy : y.toRat? = some r) : x ≤ y ↔ q ≤ r := by
  cases x with
  | nan => cases hx
  | infinite s => cases hx
  | finite s m =>
    cases y with
    | nan => cases hy
    | infinite t => cases hy
    | finite t n =>
      rw [← Option.some.inj hx, ← Option.some.inj hy]
      exact decide_eq_true_iff

/-- Only nan does not compare with itself. -/
theorem le_self_iff {x : Binary64} : x ≤ x ↔ x ≠ nan := by
  cases x with
  | nan => exact iff_of_false nofun fun other => other rfl
  | infinite s => cases s <;> exact iff_of_true rfl nofun
  | finite s m => exact iff_of_true ((le_iff_of_toRat? rfl rfl).2 Rat.le_refl) nofun

theorem lt_iff_le_and_not_le {x y : Binary64} : x < y ↔ x ≤ y ∧ ¬ y ≤ x := by
  show (x.le y && !y.le x) = true ↔ x.le y = true ∧ ¬ y.le x = true
  rw [Bool.and_eq_true, Bool.not_eq_true', Bool.not_eq_true]

theorem lt_iff_of_toRat? {x y : Binary64} {q r : Rat} (hx : x.toRat? = some q)
    (hy : y.toRat? = some r) : x < y ↔ q < r := by
  rw [lt_iff_le_and_not_le, le_iff_of_toRat? hx hy, le_iff_of_toRat? hy hx, Rat.not_le]
  exact ⟨And.right, fun less => ⟨Rat.le_of_lt less, less⟩⟩

end Calculator.Binary64
