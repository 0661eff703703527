import Mathlib.Algebra.Order.Field.Rat
import Mathlib.Data.Int.Log
import Mathlib.Data.Rat.Floor
import Mathlib.Tactic.Linarith
import Calculator.Numeric.Nearest

/-!
# Binades and decades are logarithms

The binade and the decade of a positive number are its whole logarithms to the bases two and ten.
The digits of numerator and denominator leave two candidates, and one comparison tells which of them
it is.
-/

namespace Calculator

theorem log10_eq_log (n : Nat) : log10 n = Nat.log 10 n := by
  fun_induction log10 n with
  | case1 n small => exact (Nat.log_of_lt small).symm
  | case2 n large ih => rw [ih, Nat.log_of_one_lt_of_le (by decide) (Nat.le_of_not_lt large)]

/-- A quotient of natural numbers lies between the quotients of the powers around them. -/
theorem log_div_bounds {b : Nat} (base : 1 < b) {n d : Nat} (hn : n ≠ 0) (hd : d ≠ 0) :
    (Nat.log b n : Int) - Nat.log b d - 1 ≤ Int.log b ((n : Rat) / d) ∧
      Int.log b ((n : Rat) / d) < (Nat.log b n : Int) - Nat.log b d + 1 := by
  have hb : (0 : Rat) < b := by exact_mod_cast Nat.zero_lt_of_lt base
  have npos : (0 : Rat) < n := by exact_mod_cast Nat.pos_of_ne_zero hn
  have dpos : (0 : Rat) < d := by exact_mod_cast Nat.pos_of_ne_zero hd
  have power : ∀ i j : Nat, (b : Rat) ^ ((i : Int) - j) = (b : Rat) ^ i / (b : Rat) ^ j := by
    intro i j
    rw [zpow_sub₀ hb.ne', zpow_natCast, zpow_natCast]
  constructor
  · have numerator : (b : Rat) ^ Nat.log b n ≤ n := by exact_mod_cast Nat.pow_log_le_self b hn
    have denominator : (d : Rat) ≤ (b : Rat) ^ (Nat.log b d + 1) := by
      exact_mod_cast (Nat.lt_pow_succ_log_self base d).le
    rw [← Int.zpow_le_iff_le_log base (div_pos npos dpos)]
    calc (b : Rat) ^ ((Nat.log b n : Int) - Nat.log b d - 1)
        = (b : Rat) ^ ((Nat.log b n : Int) - (Nat.log b d + 1 : Nat)) := by
          congr 1
          omega
      _ = (b : Rat) ^ Nat.log b n / (b : Rat) ^ (Nat.log b d + 1) := power _ _
      _ ≤ n / d := div_le_div₀ npos.le numerator dpos denominator
  · have numerator : (n : Rat) < (b : Rat) ^ (Nat.log b n + 1) := by
      exact_mod_cast Nat.lt_pow_succ_log_self base n
    have denominator : (b : Rat) ^ Nat.log b d ≤ d := by exact_mod_cast Nat.pow_log_le_self b hd
    rw [← Int.lt_zpow_iff_log_lt base (div_pos npos dpos)]
    calc (n : Rat) / d
        < (b : Rat) ^ (Nat.log b n + 1) / (b : Rat) ^ Nat.log b d :=
          div_lt_div₀ numerator denominator (by positivity) (by positivity)
      _ = (b : Rat) ^ (((Nat.log b n + 1 : Nat) : Int) - Nat.log b d) := (power _ _).symm
      _ = (b : Rat) ^ ((Nat.log b n : Int) - Nat.log b d + 1) := by
          congr 1
          omega

theorem settle_eq_log {b : Nat} (base : 1 < b) {q : Rat} (pos : 0 < q) :
    settle b ((Nat.log b q.num.toNat : Int) - Nat.log b q.den) q = Int.log b q := by
  have numPos := Rat.num_pos.2 pos
  have quotient : q = (q.num.toNat : Rat) / q.den := by
    have whole : (q.num.toNat : Rat) = q.num := by
      rw [← Int.cast_natCast, Int.toNat_of_nonneg numPos.le]
    rw [whole, Rat.num_div_den]
  have bounds := log_div_bounds base (by omega : q.num.toNat ≠ 0) q.den_nz
  rw [← quotient] at bounds
  unfold settle
  split_ifs with reached
  · have atLeast := (Int.zpow_le_iff_le_log base pos).1 reached
    omega
  · have below := (Int.lt_zpow_iff_log_lt base pos).1 (not_le.1 reached)
    omega

theorem binade_eq_log {q : Rat} (pos : 0 < q) : binade q = Int.log 2 q := by
  have settled := settle_eq_log (b := 2) (by decide) pos
  rwa [← Nat.log2_eq_log_two, ← Nat.log2_eq_log_two] at settled

theorem decade_eq_log {q : Rat} (pos : 0 < q) : decade q = Int.log 10 q := by
  have settled := settle_eq_log (b := 10) (by decide) pos
  rwa [← log10_eq_log, ← log10_eq_log] at settled

/-- A power of the base does not exceed a number whose logarithm its exponent does not exceed. -/
theorem zpow_le_iff (b : Nat) [b.AtLeastTwo] {q : Rat} (pos : 0 < q) {e : Int} :
    (OfNat.ofNat b : Rat) ^ e ≤ q ↔ e ≤ Int.log b q := by
  have log := Int.zpow_le_iff_le_log (Nat.AtLeastTwo.one_lt : 1 < b) pos (x := e)
  rwa [← Nat.cast_ofNat (R := Rat) (n := b)]

theorem lt_zpow_iff (b : Nat) [b.AtLeastTwo] {q : Rat} (pos : 0 < q) {e : Int} :
    q < (OfNat.ofNat b : Rat) ^ e ↔ Int.log b q < e := by
  rw [← not_le, zpow_le_iff b pos, not_le]

end Calculator
