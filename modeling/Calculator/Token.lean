import Calculator.Decimal.Shortest
import Calculator.Operator

/-!
# Tokens and lexemes

A token is a number, an operator or a parenthesis. Tokens are written with one space between two of
them.

The lexemes of a text, from left to right, are its literals, operators and parentheses. A literal
starts at a digit and is as long as it can be: a run of digits, and if a point follows, the point
and the run of digits after it, which may be empty. Characters that start no lexeme are passed
over, so that a point belongs to the literal before it or to nothing.
-/

namespace Calculator

/-- A token of an expression. -/
inductive Token where
  | number (value : Binary64)
  | operator (op : Operator)
  | opening
  | closing
deriving DecidableEq, Repr

namespace Token

/-- The text of one token. -/
def text : Token → List Char
  | number value => value.text
  | operator op => [op.symbol]
  | opening => ['(']
  | closing => [')']

/-- The text of a list of tokens. -/
def listText : List Token → List Char
  | [] => []
  | [t] => t.text
  | t :: rest => t.text ++ ' ' :: listText rest

end Token

/-- A piece of text that makes one token. -/
inductive Lexeme where
  | literal (text : List Char)
  | operator (op : Operator)
  | opening
  | closing
deriving DecidableEq, Repr

/-- The fraction at the front of a text, a point and digits, and what follows it. -/
def splitFraction : List Char → List Char × List Char
  | '.' :: rest => ('.' :: rest.takeWhile Char.isDigit, rest.dropWhile Char.isDigit)
  | rest => ([], rest)

/-- The longest literal at the front of a text, and what follows it. -/
def splitLiteral (text : List Char) : List Char × List Char :=
  let (fraction, rest) := splitFraction (text.dropWhile Char.isDigit)
  (text.takeWhile Char.isDigit ++ fraction, rest)

theorem append_splitFraction (text : List Char) :
    (splitFraction text).1 ++ (splitFraction text).2 = text := by
  unfold splitFraction
  split
  · rw [List.cons_append, List.takeWhile_append_dropWhile]
  · rfl

theorem append_splitLiteral (text : List Char) :
    (splitLiteral text).1 ++ (splitLiteral text).2 = text := by
  simp only [splitLiteral, List.append_assoc, append_splitFraction,
    List.takeWhile_append_dropWhile]

theorem length_splitLiteral_cons {c : Char} (hc : c.isDigit = true) (rest : List Char) :
    (splitLiteral (c :: rest)).2.length ≤ rest.length := by
  have h := congrArg List.length (append_splitLiteral (c :: rest))
  have pos : 0 < (splitLiteral (c :: rest)).1.length := by
    simp [splitLiteral, hc]
  simp only [List.length_append, List.length_cons] at h
  omega

namespace Lexeme

/-- The lexeme that a character other than a digit makes. -/
def ofChar? : Char → Option Lexeme
  | '(' => some opening
  | ')' => some closing
  | c => (Operator.ofSymbol? c).map operator

/-- The lexemes of a text. -/
def ofText : List Char → List Lexeme
  | [] => []
  | c :: rest =>
    if hc : c.isDigit then
      have := length_splitLiteral_cons hc rest
      literal (splitLiteral (c :: rest)).1 :: ofText (splitLiteral (c :: rest)).2
    else (ofChar? c).toList ++ ofText rest
termination_by text => text.length

/-- The characters of a lexeme. -/
def text : Lexeme → List Char
  | literal text => text
  | operator op => [op.symbol]
  | opening => ['(']
  | closing => [')']

/-- The token that a lexeme makes; a literal is the number nearest to its decimal. -/
def token : Lexeme → Except Fault Token
  | literal text =>
    match Decimal.ofText? text with
    | some d => .ok (.number (.nearest false d.toRat))
    | none => .error (.leftover 0)
  | operator op => .ok (.operator op)
  | opening => .ok .opening
  | closing => .ok .closing

end Lexeme

/-- The tokens of a text. -/
def Token.ofText (text : List Char) : Except Fault (List Token) :=
  (Lexeme.ofText text).mapM Lexeme.token

end Calculator
