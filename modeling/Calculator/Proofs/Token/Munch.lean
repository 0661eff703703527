import Calculator.Proofs.Token.Span

/-!
# Maximal munch

What a text is read as is said by rules for what it starts with: a decimal that is not continued is a
number, an operator or a parenthesis is its token, and any other character is passed over. The rules
read every text, in one way only, and a reader by spans follows them. It never fails, because it cuts
literals out between characters and each of them spells a decimal.
-/

namespace Calculator

/-- The characters that are tokens by themselves. -/
def marks : List Char := '(' :: ')' :: Operator.all.map Operator.symbol

/-- How a text is read from the left: a decimal that is not continued is a number, a parenthesis or a
symbol of an operator is its token, and any other character is passed over. -/
inductive Lexed : List Char → List Token → Prop where
  | nil : Lexed [] []
  | literal {q : Rat} {text rest : List Char} {ts : List Token} :
      Spells q text → EndsBefore text rest → Lexed rest ts →
        Lexed (text ++ rest) (.number (.nearest false q) :: ts)
  | operator (op : Operator) {rest : List Char} {ts : List Token} :
      Lexed rest ts → Lexed (op.symbol :: rest) (.operator op :: ts)
  | opening {rest : List Char} {ts : List Token} :
      Lexed rest ts → Lexed ('(' :: rest) (.opening :: ts)
  | closing {rest : List Char} {ts : List Token} :
      Lexed rest ts → Lexed (')' :: rest) (.closing :: ts)
  | other {c : Char} {rest : List Char} {ts : List Token} :
      c.isDigit = false → c ∉ marks → Lexed rest ts → Lexed (c :: rest) ts

theorem ofSymbol?_eq_none {c : Char} (other : c ∉ marks) : Operator.ofSymbol? c = none := by
  cases found : Operator.ofSymbol? c with
  | none => rfl
  | some op =>
    have written := Operator.ofSymbol?_eq_some_iff.1 found
    have mark : c ∈ Operator.all.map Operator.symbol :=
      List.mem_map.2 ⟨op, Operator.mem_all op, written⟩
    exact absurd (List.mem_cons_of_mem _ (List.mem_cons_of_mem _ mark)) other

theorem ofChar?_eq_none {c : Char} (other : c ∉ marks) : Lexeme.ofChar? c = none := by
  unfold Lexeme.ofChar?
  split
  · exact absurd (by decide) other
  · exact absurd (by decide) other
  · rw [ofSymbol?_eq_none other, Option.map_none]

/-- The longest literal in front of a text is not continued by what follows it. -/
theorem endsBefore_splitLiteral (text : List Char) :
    EndsBefore (splitLiteral text).1 (splitLiteral text).2 := by
  have stops := isDigit_head_dropWhile text
  simp only [splitLiteral]
  unfold splitFraction
  split
  · rename_i rest _
    exact fun c mem => ⟨isDigit_head_dropWhile rest c mem, fun _ => by simp⟩
  · rename_i other
    refine fun c mem => ⟨stops c mem, ?_⟩
    rintro rfl
    obtain ⟨rest, found⟩ := List.head?_eq_some_iff.1 mem
    exact absurd found (other rest)

/-- Every text is read in some way. -/
theorem exists_lexed (text : List Char) : ∃ ts, Lexed text ts := by
  fun_induction Lexeme.ofText text with
  | case1 => exact ⟨[], .nil⟩
  | case2 c rest digit _ ih =>
    obtain ⟨ts, later⟩ := ih
    obtain ⟨q, spelled⟩ := Lexeme.exists_spells_splitLiteral digit rest
    have read := Lexed.literal spelled (endsBefore_splitLiteral (c :: rest)) later
    rw [append_splitLiteral] at read
    exact ⟨_, read⟩
  | case3 c rest digit ih =>
    obtain ⟨ts, later⟩ := ih
    by_cases mark : c ∈ marks
    · simp only [marks, List.mem_cons, List.mem_map] at mark
      rcases mark with rfl | rfl | ⟨op, -, rfl⟩
      · exact ⟨_, .opening later⟩
      · exact ⟨_, .closing later⟩
      · exact ⟨_, .operator op later⟩
    · exact ⟨ts, .other (Bool.eq_false_iff.2 digit) mark later⟩

theorem mapM_token_cons {lexeme : Lexeme} {lexemes : List Lexeme} {t : Token} {ts : List Token}
    (made : lexeme.token = .ok t) (later : lexemes.mapM Lexeme.token = .ok ts) :
    (lexeme :: lexemes).mapM Lexeme.token = .ok (t :: ts) := by
  rw [List.mapM_cons, made]
  exact Outcome.bind_eq_ok_iff.2 ⟨t, rfl, Outcome.bind_eq_ok_iff.2 ⟨ts, later, rfl⟩⟩

/-- A text is read in one way only, as its lexemes are. -/
theorem Lexed.ofText {text : List Char} {ts : List Token} (lexed : Lexed text ts) :
    Token.ofText text = .ok ts := by
  unfold Token.ofText
  induction lexed with
  | nil =>
    rw [Lexeme.ofText]
    rfl
  | @literal q text rest us spelled ends _ ih =>
    obtain ⟨d, read, rfl⟩ := spelled.ofText?
    rw [Lexeme.ofText_literal_append spelled ends]
    exact mapM_token_cons (by rw [Lexeme.token, read]) ih
  | operator op _ ih =>
    rw [Lexeme.ofText_symbol]
    exact mapM_token_cons rfl ih
  | opening _ ih =>
    rw [Lexeme.ofText_opening]
    exact mapM_token_cons rfl ih
  | closing _ ih =>
    rw [Lexeme.ofText_closing]
    exact mapM_token_cons rfl ih
  | @other c rest us digit mark _ ih =>
    rw [Lexeme.ofText, dif_neg (by simp [digit]), ofChar?_eq_none mark]
    exact ih

/-- **Maximal munch.** Every text is read by its spans without a fault. Each literal is cut out between
two characters and is digits, or digits, a point and digits. The tokens are those of the rules, and no
others, and they are the ones of the lexemes. -/
theorem scan_maximal_munch (text : String) :
    (∃ ts, Token.scan text = .ok ts) ∧
      (∀ start stop, .literal start stop ∈ Span.ofText text →
        String.Pos.Raw.IsValid text ⟨start⟩ ∧ String.Pos.Raw.IsValid text ⟨stop⟩ ∧
          ∃ part q, slice? text start stop = some part ∧ Spells q part.toList) ∧
      (∀ ts, Token.scan text = .ok ts ↔ Lexed text.toList ts) ∧
      Token.scan text = Token.ofText text.toList := by
  have same := Token.scan_eq_ofText text
  obtain ⟨ts, lexed⟩ := exists_lexed text.toList
  have scanned : Token.scan text = .ok ts := by rw [same, lexed.ofText]
  refine ⟨⟨ts, scanned⟩, fun start stop mem => ?_, fun us => ⟨fun found => ?_, fun lexed' => ?_⟩, same⟩
  · obtain ⟨part, q, cut, spelled⟩ := Span.exists_spells_of_mem mem
    obtain ⟨atStart, atStop⟩ := isValid_of_slice? cut
    exact ⟨atStart, atStop, part, q, cut, spelled⟩
  · rw [scanned] at found
    cases found
    exact lexed
  · rw [same, lexed'.ofText]

/-- In `é1.5.2` the literals start behind a character of two bytes, and the second point is passed over. -/
theorem scan_maximal_munch_of_accented :
    .literal 2 5 ∈ Span.ofText "é1.5.2" ∧
      (∃ part q, slice? "é1.5.2" 2 5 = some part ∧ Spells q part.toList) ∧
      ∃ ts, Token.scan "é1.5.2" = .ok ts := by
  have mem : .literal 2 5 ∈ Span.ofText "é1.5.2" := by decide +kernel
  have law := scan_maximal_munch "é1.5.2"
  exact ⟨mem, (law.2.1 2 5 mem).2.2, law.1⟩

end Calculator
