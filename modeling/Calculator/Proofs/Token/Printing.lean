import Calculator.CommandLine
import Calculator.Proofs.Decimal.Shortest
import Calculator.Proofs.Decimal.Text
import Calculator.Proofs.Token.Reading

/-!
# Printed tokens

A finite number without a sign is printed as a literal that is read as the number. The space after a
printed token ends its literal and makes no token, so that a printed list is read back as it is. Numbers
with a sign, infinities and nan are not read back, but their texts are different from all others, and no
text holds a space: the printed list determines the list in every case.
-/

namespace Calculator

theorem breaks_space (rest : List Char) : Breaks (' ' :: rest) := by
  intro c mem
  cases mem
  decide

theorem Lexeme.ofText_space (rest : List Char) : ofText (' ' :: rest) = ofText rest := by
  rw [ofText]
  rfl

/-- A space between two texts makes no token and lets neither continue the other. -/
theorem Reads.separate {text text' : List Char} {ts us : List Token} (reads : Reads text ts)
    (reads' : Reads text' us) : Reads (text ++ ' ' :: text') (ts ++ us) := by
  obtain ⟨lexemes, tokens, read⟩ := reads
  obtain ⟨lexemes', tokens', read'⟩ := reads'
  refine ⟨lexemes ++ lexemes', mapM_token_append tokens tokens', fun rest breaks => ?_⟩
  rw [List.append_assoc, List.cons_append, read _ (breaks_space _), Lexeme.ofText_space,
    read' rest breaks, List.append_assoc]

namespace Token

/-- A number without a sign is written as a literal, and every other token as its own lexeme. -/
theorem reads_text {t : Token} (unsigned : ∀ x, t = number x → ∃ m, x = .finite false m) :
    Reads t.text [t] := by
  cases t with
  | number x =>
    obtain ⟨m, rfl⟩ := unsigned x rfl
    have spelled := m.shortest.spells_text
    have read := reads_number spelled
    have value : Binary64.nearest false m.shortest.toRat = .finite false m :=
      Binary64.nearest_shortest false m
    rwa [value] at read
  | operator op => exact ⟨[.operator op], rfl, fun rest _ => Lexeme.ofText_symbol op rest⟩
  | opening => exact ⟨[.opening], rfl, fun rest _ => Lexeme.ofText_opening rest⟩
  | closing => exact ⟨[.closing], rfl, fun rest _ => Lexeme.ofText_closing rest⟩

theorem reads_listText {ts : List Token} (unsigned : ∀ x, number x ∈ ts → ∃ m, x = .finite false m) :
    Reads (listText ts) ts := by
  induction ts using listText.induct with
  | case1 => exact ⟨[], rfl, fun _ _ => rfl⟩
  | case2 t => exact reads_text fun x same => unsigned x (same ▸ List.mem_cons_self)
  | case3 t rest nonempty ih =>
    obtain ⟨u, us, rfl⟩ := List.exists_cons_of_ne_nil nonempty
    have first : Reads t.text [t] := reads_text fun x same => unsigned x (same ▸ List.mem_cons_self)
    exact first.separate (ih fun x mem => unsigned x (List.mem_cons_of_mem t mem))

end Token

namespace Binary64

/-- The text of a finite number holds digits, points and a sign. -/
theorem mem_text_finite {s : Bool} {m : Magnitude} {c : Char} (mem : c ∈ (finite s m).text) :
    c.isDigit = true ∨ c = '.' ∨ c = '-' := by
  rcases List.mem_append.1 mem with sign | magnitude
  · cases s with
    | false => cases sign
    | true => exact .inr (.inr (List.mem_singleton.1 sign))
  · rcases m.shortest.spells_text.isDigit_or_point c magnitude with digit | point
    · exact .inl digit
    · exact .inr (.inl point)

/-- Infinities and nan are written with other characters too. -/
theorem all_numeral_text (x : Binary64) :
    x.text.all (fun c => c.isDigit || c == '.' || c == '-') = x.isFinite := by
  cases x with
  | nan => decide
  | infinite s => cases s <;> decide
  | finite s m =>
    refine List.all_eq_true.2 fun c mem => ?_
    rcases mem_text_finite mem with digit | rfl | rfl
    · simp [digit]
    · rfl
    · rfl

theorem eq_of_text_finite_eq {s t : Bool} {m n : Magnitude}
    (same : (finite s m).text = (finite t n).text) : finite s m = finite t n := by
  obtain ⟨c, rest, first, digit⟩ := m.shortest.spells_text.exists_cons
  obtain ⟨c', rest', first', digit'⟩ := n.shortest.spells_text.exists_cons
  have sign : s = t := by
    rw [text, text, first, first'] at same
    cases s <;> cases t
    · rfl
    · cases same
      exact absurd digit (by decide)
    · cases same
      exact absurd digit' (by decide)
    · rfl
  subst sign
  have magnitude := List.append_cancel_left same
  have spelled := m.shortest.spells_text
  rw [magnitude] at spelled
  rw [← nearest_shortest s m, ← nearest_shortest s n, spelled.unique n.shortest.spells_text]

/-- Different values have different texts. -/
theorem text_injective : Function.Injective text := by
  intro x y same
  have kind : x.isFinite = y.isFinite := by
    rw [← all_numeral_text, ← all_numeral_text, same]
  cases x with
  | nan =>
    cases y with
    | nan => rfl
    | infinite t => cases t <;> cases same
    | finite t n => cases kind
  | infinite s =>
    cases y with
    | nan => cases s <;> cases same
    | infinite t =>
      cases s <;> cases t
      · rfl
      · cases same
      · cases same
      · rfl
    | finite t n => cases kind
  | finite s m =>
    cases y with
    | nan => cases kind
    | infinite t => cases kind
    | finite t n => exact eq_of_text_finite_eq same

theorem space_notMem_text (x : Binary64) : ' ' ∉ x.text := by
  cases x with
  | nan => decide
  | infinite s => cases s <;> decide
  | finite s m =>
    intro mem
    rcases mem_text_finite mem with digit | point | sign
    · exact absurd digit (by decide)
    · exact absurd point (by decide)
    · exact absurd sign (by decide)

/-- A number is not written with operators and parentheses alone. -/
theorem any_isAlphanum_text (x : Binary64) : x.text.any Char.isAlphanum = true := by
  cases x with
  | nan => rfl
  | infinite s => cases s <;> rfl
  | finite s m =>
    obtain ⟨c, rest, first, digit⟩ := m.shortest.spells_text.exists_cons
    refine List.any_eq_true.2 ⟨c, ?_, ?_⟩
    · simp [text, first]
    · simp [Char.isAlphanum, digit]

end Binary64

namespace Token

/-- Only numbers hold letters or digits. -/
theorem any_isAlphanum_text_iff (t : Token) :
    t.text.any Char.isAlphanum = true ↔ ∃ x, t = number x := by
  cases t with
  | number x => exact iff_of_true x.any_isAlphanum_text ⟨x, rfl⟩
  | operator op => cases op <;> exact iff_of_false (by decide) nofun
  | opening => exact iff_of_false (by decide) nofun
  | closing => exact iff_of_false (by decide) nofun

/-- Different tokens have different texts: numbers because their texts are, and the others because they
are read back. -/
theorem text_injective : Function.Injective text := by
  intro t u same
  have kind := any_isAlphanum_text_iff t
  rw [same, any_isAlphanum_text_iff] at kind
  by_cases isNumber : ∃ x, t = number x
  · obtain ⟨x, rfl⟩ := isNumber
    obtain ⟨y, rfl⟩ := kind.2 ⟨x, rfl⟩
    exact congrArg number (Binary64.text_injective same)
  · have read : Token.ofText t.text = .ok [t] :=
      (reads_text fun x other => absurd ⟨x, other⟩ isNumber).ofText
    have read' : Token.ofText u.text = .ok [u] :=
      (reads_text fun x other => absurd (kind.1 ⟨x, other⟩) isNumber).ofText
    rw [same, read'] at read
    exact (List.singleton_inj.1 (Except.ok.inj read)).symm

theorem space_notMem_text (t : Token) : ' ' ∉ t.text := by
  cases t with
  | number x => exact x.space_notMem_text
  | operator op => cases op <;> decide
  | opening => decide
  | closing => decide

theorem text_ne_nil (t : Token) : t.text ≠ [] := by
  cases t with
  | number x =>
    intro empty
    have visible := x.any_isAlphanum_text
    rw [show x.text = [] from empty] at visible
    cases visible
  | operator op => exact List.cons_ne_nil _ _
  | opening => exact List.cons_ne_nil _ _
  | closing => exact List.cons_ne_nil _ _

theorem listText_eq_intercalate (ts : List Token) :
    listText ts = [' '].intercalate (ts.map text) := by
  induction ts using listText.induct with
  | case1 => rfl
  | case2 t => simp [listText]
  | case3 t rest nonempty ih =>
    obtain ⟨u, us, rfl⟩ := List.exists_cons_of_ne_nil nonempty
    simp [listText, ih]

/-- The spaces of a text divide it into the texts of its tokens. -/
theorem splitOn_listText {ts : List Token} (nonempty : ts ≠ []) :
    (listText ts).splitOn ' ' = ts.map text := by
  rw [listText_eq_intercalate, List.splitOn_intercalate]
  · intro word mem
    obtain ⟨t, -, rfl⟩ := List.mem_map.1 mem
    exact t.space_notMem_text
  · exact mt List.map_eq_nil_iff.1 nonempty

theorem listText_ne_nil {ts : List Token} (nonempty : ts ≠ []) : listText ts ≠ [] := by
  intro empty
  have split := splitOn_listText nonempty
  rw [empty, List.splitOn_nil] at split
  obtain ⟨t, rest, rfl⟩ := List.exists_cons_of_ne_nil nonempty
  exact t.text_ne_nil (List.cons.inj split).1.symm

theorem listText_injective : Function.Injective listText := by
  intro ts us same
  by_cases empty : ts = []
  · subst empty
    by_contra nonempty
    exact listText_ne_nil (Ne.symm nonempty) same.symm
  · have nonempty : us ≠ [] := by
      rintro rfl
      exact listText_ne_nil empty same
    have words := splitOn_listText empty
    rw [same, splitOn_listText nonempty] at words
    exact text_injective.list_map words.symm

end Token

theorem CommandLine.postorderNote_eq {source : String} {ts : List Token}
    (converted : postorderOf source = .ok ts) :
    postorderNote source = "    [" ++ String.ofList (Token.listText ts) ++ "]" := by
  rw [postorderNote, converted]

/-- **Printed tokens.** Tokens whose numbers are finite and without a sign are read back from their text.
Any list of tokens is determined by its text, and so is the postorder of an expression by the note that
is printed with its result. -/
theorem ofText_listText :
    (∀ ts : List Token, (∀ x, .number x ∈ ts → ∃ m, x = .finite false m) →
      Token.ofText (Token.listText ts) = .ok ts) ∧
    Function.Injective Token.listText ∧
    ∀ source source' ts us, postorderOf source = .ok ts → postorderOf source' = .ok us →
      CommandLine.postorderNote source = CommandLine.postorderNote source' → ts = us := by
  refine ⟨fun ts unsigned => (Token.reads_listText unsigned).ofText, Token.listText_injective, ?_⟩
  intro source source' ts us converted converted' same
  rw [CommandLine.postorderNote_eq converted, CommandLine.postorderNote_eq converted'] at same
  have text := congrArg String.toList same
  simp only [String.toList_append, String.toList_ofList, List.append_cancel_left_eq,
    List.append_cancel_right_eq] at text
  exact Token.listText_injective text

theorem ofText_listText_of_fragment :
    Token.listText [.number (.nearest false (1 / 10)), .number (.nearest false (5 / 2)), .closing,
        .opening, .operator .sub, .number .zero] = "0.1 2.5 ) ( - 0".toList ∧
      Token.ofText "0.1 2.5 ) ( - 0".toList =
        .ok [.number (.nearest false (1 / 10)), .number (.nearest false (5 / 2)), .closing,
          .opening, .operator .sub, .number .zero] ∧
      CommandLine.postorderNote "2-1" = CommandLine.postorderNote "((2)-1)" ∧
      postorderOf "((2)-1)" = .ok [.number (.ofInt 2), .number (.ofInt 1), .operator .sub] := by
  have tenth : Binary64.nearest false (1 / 10) = .finite false ⟨0x3FB999999999999A, by decide⟩ := by
    decide +kernel
  have halves : Binary64.nearest false (5 / 2) = .finite false ⟨0x4004000000000000, by decide⟩ := by
    decide +kernel
  have printed : Token.listText [.number (.nearest false (1 / 10)), .number (.nearest false (5 / 2)),
      .closing, .opening, .operator .sub, .number .zero] = "0.1 2.5 ) ( - 0".toList := by
    decide +kernel
  have unsigned : ∀ x, .number x ∈ [Token.number (.nearest false (1 / 10)),
      .number (.nearest false (5 / 2)), .closing, .opening, .operator .sub, .number .zero] →
        ∃ m, x = .finite false m := by
    intro x mem
    simp only [List.mem_cons, Token.number.injEq, reduceCtorEq, List.not_mem_nil, or_false,
      false_or] at mem
    rcases mem with rfl | rfl | rfl
    · exact ⟨_, tenth⟩
    · exact ⟨_, halves⟩
    · exact ⟨_, rfl⟩
  have converted : postorderOf "2-1" =
      .ok [.number (.ofInt 2), .number (.ofInt 1), .operator .sub] := by decide +kernel
  have same : CommandLine.postorderNote "2-1" = CommandLine.postorderNote "((2)-1)" := by
    decide +kernel
  obtain ⟨us, converted'⟩ : ∃ us, postorderOf "((2)-1)" = .ok us := by
    have succeeds : (postorderOf "((2)-1)").isOk = true := by decide +kernel
    cases outcome : postorderOf "((2)-1)" with
    | error fault =>
      rw [outcome] at succeeds
      cases succeeds
    | ok us => exact ⟨us, rfl⟩
  have read := ofText_listText.1 _ unsigned
  have determined := ofText_listText.2.2 _ _ _ _ converted converted' same
  rw [printed] at read
  exact ⟨printed, read, same, determined ▸ converted'⟩

end Calculator
