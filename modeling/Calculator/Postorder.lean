import Calculator.Token

/-!
# Postorder

Infix order is turned into postorder with a stack of operators. Numbers pass straight to the output, and
operators wait on the stack for their right operands. An operator releases those above it that are
applied before it, and a closing parenthesis releases those of its group. A closing parenthesis without
a group releases everything and leaves no trace itself; an opening one without a closing reaches the
output.

Postorder is reduced to a value with a stack of operands. An operator replaces the two on top by its
value, the upper one being its right operand. The list has a value if exactly one operand remains at
the end.
-/

namespace Calculator

/-- What waits on the stack: an operator, or the opening of a group. -/
inductive Pending where
  | operator (op : Operator)
  | group
deriving DecidableEq, Repr

namespace Pending

/-- The token that waits. -/
def token : Pending → Token
  | operator op => .operator op
  | group => .opening

/-- The entry is an operator. -/
def isOperator : Pending → Bool
  | operator _ => true
  | group => false

/-- The entry is an operator that is applied before `op` can take its left operand. -/
def precedes (op : Operator) : Pending → Bool
  | operator earlier => op.yieldsTo earlier
  | group => false

/-- Takes one token: what goes to the output, and the stack afterwards, its top first. -/
def step (stack : List Pending) : Token → List Token × List Pending
  | .number value => ([.number value], stack)
  | .operator op =>
    ((stack.takeWhile (precedes op)).map token, operator op :: stack.dropWhile (precedes op))
  | .opening => ([], group :: stack)
  | .closing => ((stack.takeWhile isOperator).map token, (stack.dropWhile isOperator).drop 1)

/-- Takes a list of tokens from the left. -/
def run (stack : List Pending) : List Token → List Token × List Pending
  | [] => ([], stack)
  | t :: rest =>
    let (out, stack) := step stack t
    let (more, stack) := run stack rest
    (out ++ more, stack)

/-- A run over two lists is a run over the second on the stack that the first leaves. -/
theorem run_append (stack : List Pending) (ts us : List Token) :
    run stack (ts ++ us) =
      ((run stack ts).1 ++ (run (run stack ts).2 us).1, (run (run stack ts).2 us).2) := by
  induction ts generalizing stack with
  | nil => rfl
  | cons t rest ih => simp only [List.cons_append, run, ih, List.append_assoc]

end Pending

/-- The tokens in postorder: the output of a run on the empty stack, and what still waits then. -/
def postorder (tokens : List Token) : List Token :=
  let (out, stack) := Pending.run [] tokens
  out ++ stack.map Pending.token

/-- Takes one token onto a stack of operands, its top first. -/
def reduceStep (stack : List Binary64) : Token → Except Fault (List Binary64)
  | .number value => .ok (value :: stack)
  | .operator op =>
    match stack with
    | right :: left :: rest => (op.apply left right).map (· :: rest)
    | _ => .error (.missingOperand op)
  | .opening | .closing => .error (.leftover stack.length)

/-- Takes a list of tokens from the left, up to the first fault. -/
def reduceFrom (stack : List Binary64) : List Token → Except Fault (List Binary64)
  | [] => .ok stack
  | t :: rest =>
    match reduceStep stack t with
    | .ok stack => reduceFrom stack rest
    | .error fault => .error fault

/-- Two lists are taken one after the other. -/
theorem reduceFrom_append (stack : List Binary64) (ts us : List Token) :
    reduceFrom stack (ts ++ us) = (reduceFrom stack ts).bind (reduceFrom · us) := by
  induction ts generalizing stack with
  | nil => rfl
  | cons t rest ih =>
    simp only [List.cons_append, reduceFrom]
    cases reduceStep stack t with
    | error fault => rfl
    | ok next => exact ih next

/-- The value of a list of tokens in postorder. -/
def reduce (tokens : List Token) : Except Fault Binary64 :=
  match reduceFrom [] tokens with
  | .ok [value] => .ok value
  | .ok stack => .error (.leftover stack.length)
  | .error fault => .error fault

end Calculator
