import Calculator.Proofs.Token.Points
import Calculator.Token.Span

/-!
# Spans hold lexemes

The offsets that a reader of a text carries are the sizes of the parts in front of it, and in a literal
every character has one byte. A literal is therefore cut out between two characters, and it is what the
lexemes of the text have in its place, so that a text is read by its spans to the tokens of its lexemes.
-/

namespace Calculator

section

variable {text front back : String} {offset : Nat}

theorem pos?_eq_some_iff {p : text.Pos} : text.pos? ⟨offset⟩ = some p ↔ p.offset = ⟨offset⟩ := by
  unfold String.pos? String.Slice.pos?
  split
  · rw [Option.map_some, Option.some.injEq]
    constructor
    · rintro rfl
      rfl
    · intro same
      exact String.Pos.ext same.symm
  · rename_i invalid
    rw [Option.map_none]
    refine iff_of_false nofun fun same => invalid ?_
    have valid := p.isValid
    rw [same] at valid
    simpa using valid

/-- There is a position between two parts of a text. -/
theorem exists_pos_between (split : text = front ++ back) :
    ∃ p : text.Pos, text.pos? ⟨front.utf8ByteSize⟩ = some p ∧ p.Splits front back := by
  subst split
  have valid : String.Pos.Raw.IsValid (front ++ back) front.rawEndPos :=
    String.Pos.Raw.isValid_iff_exists_append.2 ⟨front, back, rfl, rfl⟩
  exact ⟨String.pos _ _ valid, pos?_eq_some_iff.2 rfl, rfl, rfl⟩

/-- The part of a text between two others is cut out whole. -/
theorem slice?_append (front part back : String) :
    slice? (front ++ part ++ back) front.utf8ByteSize (front ++ part).utf8ByteSize = some part := by
  obtain ⟨past, foundPast, splitsPast⟩ := exists_pos_between (rfl : front ++ part ++ back = _)
  obtain ⟨first, foundFirst, splitsFirst⟩ :=
    exists_pos_between (String.append_assoc : front ++ part ++ back = front ++ (part ++ back))
  obtain ⟨le, copied⟩ := String.copy_slice_eq_iff_splits.2 ⟨front, back, splitsFirst, splitsPast⟩
  simp only [slice?, foundFirst, foundPast, Option.bind_eq_bind, Option.bind_some, String.slice?,
    dif_pos le, copied]
  rfl

/-- Only between characters can a text be cut. -/
theorem isValid_of_slice? {start stop : Nat} {part : String}
    (cut : slice? text start stop = some part) :
    String.Pos.Raw.IsValid text ⟨start⟩ ∧ String.Pos.Raw.IsValid text ⟨stop⟩ := by
  simp only [slice?, Option.bind_eq_bind, Option.bind_eq_some_iff, pos?_eq_some_iff] at cut
  obtain ⟨first, atStart, past, atStop, -⟩ := cut
  exact ⟨atStart ▸ first.isValid, atStop ▸ past.isValid⟩

end

theorem utf8Size_of_isDigit {c : Char} (digit : c.isDigit = true) : c.utf8Size = 1 := by
  have bound := (Char.isDigit_iff_toNat.1 digit).2
  rw [Char.utf8Size_eq_one_iff, UInt32.le_iff_toNat_le]
  exact Nat.le_trans bound (by decide)

/-- The characters of a spelled decimal have one byte each. -/
theorem Spells.utf8ByteSize {q : Rat} {text : List Char} (spelled : Spells q text) :
    (String.ofList text).utf8ByteSize = text.length := by
  have single : ∀ c ∈ text, c.utf8Size = 1 := by
    intro c mem
    rcases spelled.isDigit_or_point c mem with digit | rfl
    · exact utf8Size_of_isDigit digit
    · decide
  clear spelled
  induction text with
  | nil => rfl
  | cons c rest ih =>
    have first := single c List.mem_cons_self
    have later := ih fun d mem => single d (List.mem_cons_of_mem c mem)
    rw [String.ofList_cons, String.utf8ByteSize_append, String.utf8ByteSize_singleton, first, later,
      List.length_cons, Nat.add_comm]

/-- Digits are passed over up to the first character that is none. -/
theorem passDigits_charIndices (offset : Nat) (text : List Char) :
    passDigits offset (charIndices offset text) =
      (offset + (text.takeWhile Char.isDigit).length,
        charIndices (offset + (text.takeWhile Char.isDigit).length)
          (text.dropWhile Char.isDigit)) := by
  induction text generalizing offset with
  | nil => rfl
  | cons c rest ih =>
    by_cases digit : c.isDigit = true
    · have later := ih (offset + 1)
      simp only [charIndices, passDigits, digit, if_true, utf8Size_of_isDigit digit, later,
        List.takeWhile_cons, List.dropWhile_cons, List.length_cons]
      rw [Nat.add_assoc, Nat.add_comm 1]
    · simp [charIndices, passDigits, digit]

theorem passFraction_charIndices (offset : Nat) (text : List Char) :
    passFraction offset (charIndices offset text) =
      (offset + (splitFraction text).1.length,
        charIndices (offset + (splitFraction text).1.length) (splitFraction text).2) := by
  unfold splitFraction
  split
  · rename_i rest
    have point : ('.' : Char).utf8Size = 1 := by decide
    simp only [charIndices, passFraction, point, passDigits_charIndices, List.length_cons]
    rw [Nat.add_assoc, Nat.add_comm 1]
  · rename_i other
    unfold passFraction
    split
    · rename_i point rest first
      cases text with
      | nil => cases first
      | cons c rest =>
        cases first
        exact absurd rfl (other rest)
    · rfl

/-- A literal is passed over as the lexemes of the text have it. -/
theorem passLiteral_charIndices {c : Char} (digit : c.isDigit = true) (offset : Nat)
    (rest : List Char) :
    passLiteral offset (charIndices (offset + c.utf8Size) rest) =
      (offset + (splitLiteral (c :: rest)).1.length,
        charIndices (offset + (splitLiteral (c :: rest)).1.length)
          (splitLiteral (c :: rest)).2) := by
  have sum : ∀ m n : Nat, offset + 1 + m + n = offset + (m + 1 + n) := by omega
  simp only [passLiteral, splitLiteral, utf8Size_of_isDigit digit, passDigits_charIndices,
    passFraction_charIndices, digit, List.takeWhile_cons, List.dropWhile_cons, if_true,
    List.length_append, List.length_cons, sum]

namespace Span

/-- Behind any front of a text, its spans hold the lexemes of the rest. -/
theorem map_lexeme?_ofChars {text front : String} {rest : List Char}
    (split : text = front ++ String.ofList rest) :
    (ofChars (charIndices front.utf8ByteSize rest)).map (lexeme? text) =
      (Lexeme.ofText rest).map some := by
  fun_induction Lexeme.ofText rest generalizing front with
  | case1 => simp [charIndices, ofChars]
  | case2 c rest digit _ ih =>
    obtain ⟨q, spelled⟩ := Lexeme.exists_spells_splitLiteral digit rest
    have parts : text = front ++ String.ofList (splitLiteral (c :: rest)).1 ++
        String.ofList (splitLiteral (c :: rest)).2 := by
      rw [String.append_assoc, ← String.ofList_append, append_splitLiteral, split]
    have size : (front ++ String.ofList (splitLiteral (c :: rest)).1).utf8ByteSize =
        front.utf8ByteSize + (splitLiteral (c :: rest)).1.length := by
      rw [String.utf8ByteSize_append, spelled.utf8ByteSize]
    have cut := slice?_append front (String.ofList (splitLiteral (c :: rest)).1)
      (String.ofList (splitLiteral (c :: rest)).2)
    have later := ih parts
    rw [← parts, size] at cut
    rw [size] at later
    simp only [charIndices, ofChars, digit, if_true, passLiteral_charIndices digit, List.map_cons,
      lexeme?, cut, Option.map_some, String.toList_ofList, later]
  | case3 c rest digit ih =>
    have parts : text = front ++ String.singleton c ++ String.ofList rest := by
      rw [String.append_assoc, ← String.ofList_cons, split]
    have later := ih parts
    rw [String.utf8ByteSize_append, String.utf8ByteSize_singleton] at later
    rw [charIndices, ofChars, if_neg digit, List.map_append, List.map_append, later]
    cases Lexeme.ofChar? c with
    | none => rfl
    | some lexeme => rfl

theorem map_lexeme?_ofText (text : String) :
    (ofText text).map (lexeme? text) = (Lexeme.ofText text.toList).map some := by
  have whole : text = "" ++ String.ofList text.toList := by simp
  exact map_lexeme?_ofChars whole

/-- Where spans hold lexemes, they make the tokens of these. -/
theorem mapM_token {text : String} {spans : List Span} {lexemes : List Lexeme}
    (held : spans.map (lexeme? text) = lexemes.map some) :
    spans.mapM (token text) = lexemes.mapM Lexeme.token := by
  induction spans generalizing lexemes with
  | nil =>
    cases lexemes with
    | nil => rfl
    | cons lexeme rest => cases held
  | cons span spans ih =>
    cases lexemes with
    | nil => cases held
    | cons lexeme rest =>
      obtain ⟨first, later⟩ := List.cons.inj held
      have same : token text span = lexeme.token := by rw [token, first]
      rw [List.mapM_cons, List.mapM_cons, same, ih later]

/-- A literal is cut out between two characters and spells a decimal. -/
theorem exists_spells_of_mem {text : String} {start stop : Nat}
    (mem : .literal start stop ∈ ofText text) :
    ∃ part q, slice? text start stop = some part ∧ Spells q part.toList := by
  have held : lexeme? text (.literal start stop) ∈ (Lexeme.ofText text.toList).map some := by
    rw [← map_lexeme?_ofText]
    exact List.mem_map_of_mem mem
  obtain ⟨lexeme, mem, same⟩ := List.mem_map.1 held
  obtain ⟨part, cut, rfl⟩ := Option.map_eq_some_iff.1 same.symm
  obtain ⟨q, spelled⟩ := Lexeme.exists_spells_of_mem mem
  exact ⟨part, q, cut, spelled⟩

end Span

/-- The spans of a text make the tokens of its lexemes. -/
theorem Token.scan_eq_ofText (text : String) : Token.scan text = Token.ofText text.toList :=
  Span.mapM_token (Span.map_lexeme?_ofText text)

end Calculator
