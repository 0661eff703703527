import Mathlib.Algebra.Order.Field.Rat
import Calculator.Grammar
import Calculator.Token

/-!
# Reading derived texts

The lexemes of a derived text are the tokens of the same derivation. A literal ends where its
spelling ends, because an operator, a parenthesis or the end of the text follows it, and none of
these continues a literal. The statement therefore speaks of every text that may stand behind.
-/

namespace Calculator

/-- The text does not continue a literal in front of it. -/
def Breaks (text : List Char) : Prop :=
  ∀ c ∈ text.head?, c.isDigit = false ∧ c ≠ '.'

theorem breaks_nil : Breaks [] := by
  intro c mem
  cases mem

theorem breaks_symbol (op : Operator) (rest : List Char) : Breaks (op.symbol :: rest) := by
  intro c mem
  cases mem
  cases op <;> decide

theorem breaks_closing (rest : List Char) : Breaks (')' :: rest) := by
  intro c mem
  cases mem
  decide

/-- A run of digits is taken whole if no digit follows it. -/
theorem takeWhile_isDigit_append {digits rest : List Char} (numeric : digits.all Char.isDigit = true)
    (ends : ∀ c ∈ rest.head?, c.isDigit = false) :
    (digits ++ rest).takeWhile Char.isDigit = digits ∧
      (digits ++ rest).dropWhile Char.isDigit = rest := by
  have taken : ∀ c ∈ digits, c.isDigit = true := List.all_eq_true.1 numeric
  rw [List.takeWhile_append_of_pos taken, List.dropWhile_append_of_pos taken]
  cases rest with
  | nil => simp
  | cons c rest =>
    have stop : c.isDigit = false := ends c rfl
    simp [stop]

theorem splitFraction_of_breaks {rest : List Char} (breaks : Breaks rest) :
    splitFraction rest = ([], rest) := by
  cases rest with
  | nil => rfl
  | cons c rest =>
    have other : c ≠ '.' := (breaks c rfl).2
    unfold splitFraction
    split
    · rename_i eq
      exact absurd (List.cons.inj eq).1 other
    · rfl

/-- The text does not continue the literal in front of it: it starts with no digit, and with a point only
if the literal has a point already. -/
def EndsBefore (literal rest : List Char) : Prop :=
  ∀ c ∈ rest.head?, c.isDigit = false ∧ (c = '.' → '.' ∈ literal)

theorem Breaks.endsBefore {rest : List Char} (breaks : Breaks rest) (literal : List Char) :
    EndsBefore literal rest :=
  fun c mem => ⟨(breaks c mem).1, fun point => absurd point (breaks c mem).2⟩

/-- The longest literal in front of a text that does not continue it is the whole spelling. -/
theorem splitLiteral_append {q : Rat} {text rest : List Char} (spelled : Spells q text)
    (ends : EndsBefore text rest) : splitLiteral (text ++ rest) = (text, rest) := by
  have stops : ∀ c ∈ rest.head?, c.isDigit = false := fun c mem => (ends c mem).1
  cases spelled with
  | whole _ numeric =>
    have breaks : Breaks rest := by
      refine fun c mem => ⟨stops c mem, fun point => ?_⟩
      have digit := List.all_eq_true.1 numeric '.' ((ends c mem).2 point)
      exact absurd digit (by decide)
    obtain ⟨taken, left⟩ := takeWhile_isDigit_append numeric stops
    simp only [splitLiteral, taken, left, splitFraction_of_breaks breaks, List.append_nil]
  | @point digits fraction _ numeric allFraction =>
    have point : ∀ c ∈ ('.' :: (fraction ++ rest)).head?, c.isDigit = false := by
      intro c mem
      cases mem
      decide
    obtain ⟨taken, left⟩ := takeWhile_isDigit_append numeric point
    obtain ⟨taken', left'⟩ := takeWhile_isDigit_append allFraction stops
    simp only [List.append_assoc, List.cons_append, splitLiteral, taken, left, splitFraction,
      taken', left']

theorem Spells.exists_cons {q : Rat} {text : List Char} (spelled : Spells q text) :
    ∃ c rest, text = c :: rest ∧ c.isDigit = true := by
  have start : ∀ {digits : List Char}, digits ≠ [] → digits.all Char.isDigit = true →
      ∃ c rest, digits = c :: rest ∧ c.isDigit = true := by
    intro digits nonempty numeric
    cases digits with
    | nil => exact absurd rfl nonempty
    | cons c rest => exact ⟨c, rest, rfl, List.all_eq_true.1 numeric c List.mem_cons_self⟩
  cases spelled with
  | whole nonempty numeric => exact start nonempty numeric
  | point nonempty numeric _ =>
    obtain ⟨c, rest, rfl, digit⟩ := start nonempty numeric
    exact ⟨c, rest ++ _, rfl, digit⟩

theorem Spells.isDigit_or_point {q : Rat} {text : List Char} (spelled : Spells q text) :
    ∀ c ∈ text, c.isDigit = true ∨ c = '.' := by
  intro c mem
  cases spelled with
  | whole _ numeric => exact .inl (List.all_eq_true.1 numeric c mem)
  | point _ numeric allFraction =>
    rcases List.mem_append.1 mem with mem | mem
    · exact .inl (List.all_eq_true.1 numeric c mem)
    · rcases List.mem_cons.1 mem with rfl | mem
      · exact .inr rfl
      · exact .inl (List.all_eq_true.1 allFraction c mem)

/-- What spells a decimal is read as that decimal. -/
theorem Spells.ofText? {q : Rat} {text : List Char} (spelled : Spells q text) :
    ∃ d, Decimal.ofText? text = some d ∧ d.toRat = q := by
  cases spelled with
  | whole nonempty numeric =>
    have ends : ∀ c ∈ ([] : List Char).head?, c.isDigit = false := nofun
    obtain ⟨taken, left⟩ := takeWhile_isDigit_append numeric ends
    rw [List.append_nil] at taken left
    refine ⟨⟨Nat.ofDigitChars 10 text 0, 0⟩, ?_, by simp [Decimal.toRat]⟩
    simp [Decimal.ofText?, taken, left, nonempty]
  | @point digits fraction nonempty numeric allFraction =>
    have point : ∀ c ∈ ('.' :: fraction).head?, c.isDigit = false := by
      intro c mem
      cases mem
      decide
    obtain ⟨taken, left⟩ := takeWhile_isDigit_append numeric point
    refine ⟨⟨Nat.ofDigitChars 10 (digits ++ fraction) 0, -fraction.length⟩, ?_, ?_⟩
    · simp [Decimal.ofText?, taken, left, nonempty, allFraction]
    · rw [Decimal.toRat, zpow_neg, zpow_natCast, div_eq_mul_inv]

/-- A text spells one number at most. -/
theorem Spells.unique {q r : Rat} {text : List Char} (spelled : Spells q text)
    (spelled' : Spells r text) : q = r := by
  obtain ⟨d, read, rfl⟩ := spelled.ofText?
  obtain ⟨d', read', rfl⟩ := spelled'.ofText?
  rw [Option.some.inj (read.symm.trans read')]

namespace Lexeme

theorem ofText_literal_append {q : Rat} {text rest : List Char} (spelled : Spells q text)
    (ends : EndsBefore text rest) : ofText (text ++ rest) = literal text :: ofText rest := by
  have split := splitLiteral_append spelled ends
  obtain ⟨c, tail, rfl, digit⟩ := spelled.exists_cons
  rw [List.cons_append] at split ⊢
  rw [ofText, dif_pos digit]
  show literal (splitLiteral _).1 :: ofText (splitLiteral _).2 = _
  rw [split]

theorem ofText_literal {q : Rat} {text rest : List Char} (spelled : Spells q text)
    (breaks : Breaks rest) : ofText (text ++ rest) = literal text :: ofText rest :=
  ofText_literal_append spelled (breaks.endsBefore text)

theorem ofText_symbol (op : Operator) (rest : List Char) :
    ofText (op.symbol :: rest) = operator op :: ofText rest := by
  rw [ofText]
  cases op <;> rfl

theorem ofText_opening (rest : List Char) : ofText ('(' :: rest) = opening :: ofText rest := by
  rw [ofText]
  rfl

theorem ofText_closing (rest : List Char) : ofText (')' :: rest) = closing :: ofText rest := by
  rw [ofText]
  rfl

end Lexeme

/-- In front of any text that does not continue its last literal, `text` is read as `ts`. -/
def Reads (text : List Char) (ts : List Token) : Prop :=
  ∃ lexemes : List Lexeme, lexemes.mapM Lexeme.token = .ok ts ∧
    ∀ rest, Breaks rest → Lexeme.ofText (text ++ rest) = lexemes ++ Lexeme.ofText rest

theorem reads_number {q : Rat} {text : List Char} (spelled : Spells q text) :
    Reads text [.number (.nearest false q)] := by
  obtain ⟨d, read, value⟩ := spelled.ofText?
  refine ⟨[.literal text], ?_, fun rest breaks => Lexeme.ofText_literal spelled breaks⟩
  simp [Lexeme.token, read, value]

theorem mapM_token_append {lexemes lexemes' : List Lexeme} {ts us : List Token}
    (tokens : lexemes.mapM Lexeme.token = .ok ts) (tokens' : lexemes'.mapM Lexeme.token = .ok us) :
    (lexemes ++ lexemes').mapM Lexeme.token = .ok (ts ++ us) := by
  rw [List.mapM_append, tokens]
  show (lexemes'.mapM Lexeme.token >>= fun us' => pure (ts ++ us')) = _
  rw [tokens']
  rfl

theorem Reads.group {text : List Char} {ts : List Token} (reads : Reads text ts) :
    Reads ('(' :: text ++ [')']) (.opening :: ts ++ [.closing]) := by
  obtain ⟨lexemes, tokens, read⟩ := reads
  have opening : [Lexeme.opening].mapM Lexeme.token = .ok [.opening] := rfl
  have closing : [Lexeme.closing].mapM Lexeme.token = .ok [.closing] := rfl
  refine ⟨[.opening] ++ lexemes ++ [.closing],
    mapM_token_append (mapM_token_append opening tokens) closing, fun rest _ => ?_⟩
  rw [List.append_assoc, List.cons_append, Lexeme.ofText_opening, List.singleton_append,
    read _ (breaks_closing rest), Lexeme.ofText_closing]
  simp

theorem Reads.apply {text text' : List Char} {ts us : List Token} (reads : Reads text ts)
    (reads' : Reads text' us) (op : Operator) :
    Reads (text ++ op.symbol :: text') (ts ++ .operator op :: us) := by
  obtain ⟨lexemes, tokens, read⟩ := reads
  obtain ⟨lexemes', tokens', read'⟩ := reads'
  have symbol : [Lexeme.operator op].mapM Lexeme.token = .ok [.operator op] := rfl
  refine ⟨lexemes ++ ([.operator op] ++ lexemes'),
    mapM_token_append tokens (mapM_token_append symbol tokens'), fun rest breaks => ?_⟩
  rw [List.append_assoc, List.cons_append, read _ (breaks_symbol op _), Lexeme.ofText_symbol,
    read' rest breaks]
  simp

theorem Reads.ofText {text : List Char} {ts : List Token} (reads : Reads text ts) :
    Token.ofText text = .ok ts := by
  obtain ⟨lexemes, tokens, read⟩ := reads
  have whole := read [] breaks_nil
  rw [List.append_nil, Lexeme.ofText, List.append_nil] at whole
  rw [Token.ofText, whole]
  exact tokens

end Calculator
