/-!
# The text of an expression

Blanks in the text of an expression mean nothing and are dropped. What remains must not be empty,
must hold only characters that expressions are written with, and must have as many opening as
closing parentheses. Whether these nest, and whether anything else is in its place, shows only when
the expression is evaluated.
-/

namespace Calculator

/-- What is wrong with a text before it is taken apart. -/
inductive TextFault where
  /-- Nothing is written. -/
  | empty
  /-- Characters that no expression holds, in order, repeats included. -/
  | foreign (characters : List Char)
  /-- The numbers of opening and closing parentheses differ. -/
  | unbalanced (openings closings : Nat)
deriving DecidableEq, Repr

/-- The wording of a fault. -/
def TextFault.message : TextFault → String
  | empty => "Expression cannot be empty"
  | foreign characters =>
    "Expression contains invalid characters: " ++ String.ofList characters
  | unbalanced openings closings =>
    "Mismatched parentheses: " ++ toString openings ++ " opening, " ++ toString closings ++
      " closing"

namespace Source

/-- Space, tab, line feed, form feed and carriage return. -/
def isBlank (c : Char) : Bool :=
  c = ' ' || c = '\t' || c = '\n' || c = '\x0c' || c = '\r'

/-- A character that expressions are written with. -/
def isAllowed (c : Char) : Bool :=
  c.isDigit || ['.', '+', '-', '*', '/', '^', '(', ')'].contains c

/-- The text without its blanks, unless nothing remains. -/
def compact (text : List Char) : Except TextFault (List Char) :=
  let rest := text.filter (!isBlank ·)
  if rest.isEmpty then .error .empty else .ok rest

/-- Refuses foreign characters, and then parentheses that differ in number. -/
def check (text : List Char) : Except TextFault Unit :=
  let foreign := text.filter (!isAllowed ·)
  let openings := text.count '('
  let closings := text.count ')'
  if !foreign.isEmpty then .error (.foreign foreign)
  else if openings ≠ closings then .error (.unbalanced openings closings)
  else .ok ()

/-- The text without its blanks, checked. -/
def accept (text : List Char) : Except TextFault (List Char) := do
  let text ← compact text
  check text
  return text

end Source

end Calculator
