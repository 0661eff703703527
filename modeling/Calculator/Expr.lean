import Calculator.Operator
import Calculator.Token

/-!
# Expression trees

What an expression means apart from how it is written: an operator over two expressions, or a
number. A tree has a postorder, in which every operator follows its operands, and a value, which is
computed from the leaves up and is missing only where a division meets a zero divisor.
-/

namespace Calculator

/-- A tree of operators over numbers. -/
inductive Expr where
  | number (value : Binary64)
  | apply (op : Operator) (left right : Expr)
deriving DecidableEq, Repr

namespace Expr

/-- The tokens of a tree, every operator after its operands. -/
def postorder : Expr → List Token
  | number value => [.number value]
  | apply op left right => left.postorder ++ right.postorder ++ [.operator op]

/-- The value of a tree, or the first fault that its parts meet from the left. -/
def value : Expr → Except Fault Binary64
  | number value => .ok value
  | apply op left right => do
    let x ← left.value
    let y ← right.value
    op.apply x y

/-- A tree has a value unless a division meets a zero divisor. -/
theorem value_eq_error {e : Expr} {fault : Fault} (h : e.value = .error fault) :
    fault = .divisionByZero := by
  induction e generalizing fault with
  | number value => cases h
  | apply op left right ihl ihr =>
    simp only [value, bind, Except.bind] at h
    split at h
    · rename_i hl
      cases h
      exact ihl hl
    · split at h
      · rename_i hr
        cases h
        exact ihr hr
      · exact (Operator.apply_eq_error_iff.1 h).2.2

end Expr

end Calculator
