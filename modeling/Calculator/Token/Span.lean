import Calculator.Token

/-!
# Spans

A text is read once from the left, by its characters and the offsets of their bytes. A literal is then
known by its span, the offset of its first byte and the offset past its last, and its characters are cut
out of the text by these two. A cut that would go through a character has no result.
-/

namespace Calculator

/-- The characters of a text, each with the offset of its first byte; the text starts at `offset`. -/
def charIndices (offset : Nat) : List Char → List (Nat × Char)
  | [] => []
  | c :: rest => (offset, c) :: charIndices (offset + c.utf8Size) rest

/-- Passes over a run of digits: the offset past the last of them, or `stop` if there is none, and what
follows. -/
def passDigits (stop : Nat) : List (Nat × Char) → Nat × List (Nat × Char)
  | [] => (stop, [])
  | (offset, c) :: rest =>
    if c.isDigit then passDigits (offset + c.utf8Size) rest else (stop, (offset, c) :: rest)

/-- Passes over a point and the digits after it, if a point comes first. -/
def passFraction (stop : Nat) : List (Nat × Char) → Nat × List (Nat × Char)
  | (point, '.') :: rest => passDigits (point + 1) rest
  | rest => (stop, rest)

/-- Passes over a literal behind its first digit, which is at `start`. -/
def passLiteral (start : Nat) (rest : List (Nat × Char)) : Nat × List (Nat × Char) :=
  let (stop, rest) := passDigits (start + 1) rest
  passFraction stop rest

theorem length_passDigits (stop : Nat) (input : List (Nat × Char)) :
    (passDigits stop input).2.length ≤ input.length := by
  induction input generalizing stop with
  | nil => exact Nat.le_refl _
  | cons first rest ih =>
    rw [passDigits]
    split
    · exact Nat.le_succ_of_le (ih _)
    · exact Nat.le_refl _

theorem length_passFraction (stop : Nat) (input : List (Nat × Char)) :
    (passFraction stop input).2.length ≤ input.length := by
  unfold passFraction
  split
  · exact Nat.le_succ_of_le (length_passDigits _ _)
  · exact Nat.le_refl _

theorem length_passLiteral (start : Nat) (rest : List (Nat × Char)) :
    (passLiteral start rest).2.length ≤ rest.length :=
  Nat.le_trans (length_passFraction _ _) (length_passDigits _ _)

/-- The part of a text from one offset to before another, if both are between characters. -/
def slice? (text : String) (start stop : Nat) : Option String := do
  let first ← text.pos? ⟨start⟩
  let past ← text.pos? ⟨stop⟩
  let part ← text.slice? first past
  return part.copy

/-- What a reader of a text has found. -/
inductive Span where
  /-- A literal from the byte at `start` to before the one at `stop`. -/
  | literal (start stop : Nat)
  /-- A character that is a lexeme by itself. -/
  | mark (lexeme : Lexeme)
deriving DecidableEq, Repr

namespace Span

/-- The spans of a text that is given by its characters and their offsets. -/
def ofChars : List (Nat × Char) → List Span
  | [] => []
  | (start, c) :: rest =>
    if c.isDigit then
      have := length_passLiteral start rest
      literal start (passLiteral start rest).1 :: ofChars (passLiteral start rest).2
    else ((Lexeme.ofChar? c).map mark).toList ++ ofChars rest
termination_by input => input.length

/-- The spans of a text. -/
def ofText (text : String) : List Span := ofChars (charIndices 0 text.toList)

/-- The lexeme at a span of a text. -/
def lexeme? (text : String) : Span → Option Lexeme
  | literal start stop => (slice? text start stop).map fun part => .literal part.toList
  | mark lexeme => some lexeme

/-- The token at a span of a text. -/
def token (text : String) (span : Span) : Except Fault Token :=
  match span.lexeme? text with
  | some lexeme => lexeme.token
  | none => .error (.leftover 0)

end Span

/-- The tokens of a text, read by their spans. -/
def Token.scan (text : String) : Except Fault (List Token) :=
  (Span.ofText text).mapM (Span.token text)

end Calculator
