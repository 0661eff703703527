import Calculator.Expr
import Calculator.Proofs.Outcome

/-!
# Trees that divide by zero

A tree has a value unless a division in it has a divisor of value zero. A division is met only if its
divisor has a value, but a divisor without one has met another division before.
-/

namespace Calculator.Expr

open Outcome

/-- A division in the tree has a divisor whose value is zero. -/
inductive DividesByZero : Expr → Prop where
  | here {left right : Expr} {y : Binary64} : right.value = .ok y → y.isZero = true →
      DividesByZero (.apply .div left right)
  | left {op : Operator} {left right : Expr} : DividesByZero left →
      DividesByZero (.apply op left right)
  | right {op : Operator} {left right : Expr} : DividesByZero right →
      DividesByZero (.apply op left right)

theorem value_apply_eq_error_iff {op : Operator} {left right : Expr} {fault : Fault} :
    (apply op left right).value = .error fault ↔
      left.value = .error fault ∨ ∃ x, left.value = .ok x ∧
        (right.value = .error fault ∨ ∃ y, right.value = .ok y ∧ op.apply x y = .error fault) := by
  rw [value, bind_eq_error_iff]
  simp only [bind_eq_error_iff]

/-- A division by zero anywhere in a tree makes it fail, because everything before it either has a
value or fails in the same way. -/
theorem DividesByZero.value_eq {e : Expr} (divides : e.DividesByZero) :
    e.value = .error .divisionByZero := by
  have whole : ∀ {op : Operator} {left right : Expr}, (∀ x, left.value = .ok x →
      right.value = .error .divisionByZero ∨
        ∃ y, right.value = .ok y ∧ op.apply x y = .error .divisionByZero) →
      (apply op left right).value = .error .divisionByZero := by
    intro op left right later
    refine value_apply_eq_error_iff.2 ?_
    cases hleft : left.value with
    | error fault =>
      cases value_eq_error hleft
      exact .inl rfl
    | ok x => exact .inr ⟨x, rfl, later x hleft⟩
  induction divides with
  | here hright zero =>
    refine whole fun x _ => .inr ⟨_, hright, ?_⟩
    exact Operator.apply_eq_error_iff.2 ⟨rfl, zero, rfl⟩
  | left _ ih => exact value_apply_eq_error_iff.2 (.inl ih)
  | right _ ih => exact whole fun x _ => .inl ih

end Calculator.Expr
