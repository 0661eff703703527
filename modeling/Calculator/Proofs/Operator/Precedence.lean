import Calculator.Grammar

/-!
# Levels and precedences

Outside of groups a level of the grammar applies the operators that bind at least as tightly as its
own. Between operators of different precedence the tighter one is applied first, and of one
precedence the earlier one, unless they are powers.
-/

namespace Calculator

/-- The least precedence of an operator that a level applies outside of groups; an atom applies
none, and its number is past every precedence. -/
def Level.binding : Level → Nat
  | .sum => 1
  | .product => 2
  | .power => 3
  | .atom => 4

namespace Operator

theorem one_le_precedence (op : Operator) : 1 ≤ op.precedence := by
  cases op <;> decide

theorem precedence_le (op : Operator) : op.precedence ≤ 3 := by
  cases op <;> decide

/-- No operator binds as tightly as an atom. -/
theorem not_atom_le_precedence (op : Operator) : ¬ Level.atom.binding ≤ op.precedence := by
  have bound := op.precedence_le
  show ¬ 4 ≤ op.precedence
  omega

theorem eq_pow_of_le {op : Operator} (tight : Level.power.binding ≤ op.precedence) : op = pow := by
  cases op with
  | pow => rfl
  | add | sub | mul | div => exact absurd tight (by decide)

theorem eq_mul_or_div {op : Operator} (level : op.precedence = Level.product.binding) :
    op = mul ∨ op = div := by
  cases op with
  | mul => exact .inl rfl
  | div => exact .inr rfl
  | add | sub | pow => cases level

theorem eq_add_or_sub {op : Operator} (level : op.precedence = Level.sum.binding) :
    op = add ∨ op = sub := by
  cases op with
  | add => exact .inl rfl
  | sub => exact .inr rfl
  | mul | div | pow => cases level

theorem yieldsTo_of_le {later earlier : Operator} (left : later.groupsRight = false)
    (tighter : later.precedence ≤ earlier.precedence) : later.yieldsTo earlier = true := by
  simp [yieldsTo, left, tighter]

theorem yieldsTo_eq_false_of_lt {later earlier : Operator}
    (looser : earlier.precedence < later.precedence) : later.yieldsTo earlier = false := by
  unfold yieldsTo
  split
  · exact decide_eq_false (by omega)
  · exact decide_eq_false (by omega)

end Operator

end Calculator
