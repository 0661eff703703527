import Calculator.Binary64.Power

/-!
# Operators

The five binary operators, their symbols, how they bind, and their values. Of two operators with one
operand between them the one that binds tighter takes it; between equals the left one does, except
that powers group from the right.

Every operator but division has a value on every two operands. A division has none if its divisor
is zero, whatever the sign of the zero and whatever is divided. This is one of the faults that can keep
a list of tokens from having a value.
-/

namespace Calculator

/-- A binary operator. -/
inductive Operator where
  | add
  | sub
  | mul
  | div
  | pow
deriving DecidableEq, Repr

namespace Operator

/-- Every operator, in the order of the constructors. -/
def all : List Operator := [add, sub, mul, div, pow]

/-- The character that writes the operator. -/
def symbol : Operator → Char
  | add => '+'
  | sub => '-'
  | mul => '*'
  | div => '/'
  | pow => '^'

/-- The operator that a character writes. -/
def ofSymbol? : Char → Option Operator
  | '+' => some add
  | '-' => some sub
  | '*' => some mul
  | '/' => some div
  | '^' => some pow
  | _ => none

/-- How tightly the operator binds; a larger number binds tighter. -/
def precedence : Operator → Nat
  | add | sub => 1
  | mul | div => 2
  | pow => 3

/-- A run of the operator groups from the right. -/
def groupsRight : Operator → Bool
  | pow => true
  | _ => false

/-- An operand between `earlier` and `later` belongs to `earlier`, which is applied first. -/
def yieldsTo (later earlier : Operator) : Bool :=
  if later.groupsRight then later.precedence < earlier.precedence
  else later.precedence ≤ earlier.precedence

theorem mem_all (op : Operator) : op ∈ all := by cases op <;> decide

@[simp] theorem ofSymbol?_symbol (op : Operator) : ofSymbol? op.symbol = some op := by
  cases op <;> rfl

/-- A character writes the operator whose symbol it is. -/
theorem ofSymbol?_eq_some_iff {c : Char} {op : Operator} : ofSymbol? c = some op ↔ op.symbol = c := by
  constructor
  · intro found
    unfold ofSymbol? at found
    split at found <;> cases found <;> rfl
  · rintro rfl
    exact ofSymbol?_symbol op

end Operator

/-- Why a list of tokens has no value. -/
inductive Fault where
  /-- An operator comes where fewer than two operands precede it. -/
  | missingOperand (op : Operator)
  /-- A division has a zero divisor. -/
  | divisionByZero
  /-- The operands in hand at the end, or at a parenthesis, are not one value. -/
  | leftover (count : Nat)
deriving DecidableEq, Repr

/-- The wording of a fault. -/
def Fault.message : Fault → String
  | missingOperand op => "Operator '" ++ op.symbol.toString ++ "' requires two operands"
  | divisionByZero => "Division by zero"
  | leftover count =>
    "Invalid expression: " ++ toString count ++ " value(s) left on the operand stack"

namespace Operator

/-- The value of `left op right`. -/
def apply : Operator → (left right : Binary64) → Except Fault Binary64
  | add, left, right => .ok (left.add right)
  | sub, left, right => .ok (left.sub right)
  | mul, left, right => .ok (left.mul right)
  | div, left, right => if right.isZero then .error .divisionByZero else .ok (left.div right)
  | pow, left, right => .ok (left.pow right)

/-- Only a division by zero has no value. -/
theorem apply_eq_error_iff {op : Operator} {left right : Binary64} {fault : Fault} :
    op.apply left right = .error fault ↔
      op = div ∧ right.isZero = true ∧ fault = .divisionByZero := by
  cases op
  case div =>
    by_cases h : right.isZero = true
    · simp [apply, h, eq_comm]
    · simp [apply, h]
  all_goals simp [apply]

end Operator

end Calculator
