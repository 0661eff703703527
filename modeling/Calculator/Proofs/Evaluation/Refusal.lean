import Calculator.Proofs.Outcome
import Calculator.Proofs.Source.Spacing
import Calculator.Proofs.Token.Span

/-!
# Texts that are refused

The checks run on a text from which the blanks are gone, but what they find can be told from the text as
it was given: whether it is more than blanks, which of its characters are neither blanks nor signs of
expressions, and how many parentheses of each kind it has. The first of these that is wrong is the fault,
and a text with none of them has tokens and a postorder. What can still fail is the reduction.
-/

namespace Calculator

open Outcome

namespace Source

/-- The characters that may stand anywhere and mean nothing. -/
def blanks : List Char := [' ', '\t', '\n', '\x0c', '\r']

/-- The characters that expressions are written with. -/
def signs : List Char :=
  ['0', '1', '2', '3', '4', '5', '6', '7', '8', '9', '.', '+', '-', '*', '/', '^', '(', ')']

/-- The characters of a text that are neither blanks nor signs, in order, repeats included. -/
def strangers (source : List Char) : List Char := source.filter fun c => c ∉ blanks ∧ c ∉ signs

/-- A text is refused for a fault: it is only blanks, or else it has strangers, or else its parentheses
differ in number. -/
def Refused (source : List Char) : TextFault → Prop
  | .empty => ∀ c ∈ source, c ∈ blanks
  | .foreign characters => characters ≠ [] ∧ characters = strangers source
  | .unbalanced openings closings =>
    (¬ ∀ c ∈ source, c ∈ blanks) ∧ strangers source = [] ∧
      openings = source.count '(' ∧ closings = source.count ')' ∧ openings ≠ closings

theorem isBlank_iff_mem {c : Char} : isBlank c = true ↔ c ∈ blanks := isBlank_iff

theorem isDigit_iff_mem {c : Char} :
    c.isDigit = true ↔ c ∈ ['0', '1', '2', '3', '4', '5', '6', '7', '8', '9'] := by
  constructor
  · intro digit
    have bound : c.toNat < 58 := by
      simp only [Char.isDigit, Bool.and_eq_true, decide_eq_true_eq, UInt32.le_iff_toNat_le] at digit
      exact Nat.lt_succ_of_le digit.2
    have below : ∀ n < 58, (Char.ofNat n).isDigit = true →
        Char.ofNat n ∈ ['0', '1', '2', '3', '4', '5', '6', '7', '8', '9'] := by decide +kernel
    have found := below c.toNat bound
    rw [Char.ofNat_toNat] at found
    exact found digit
  · intro mem
    have numeric : ['0', '1', '2', '3', '4', '5', '6', '7', '8', '9'].all Char.isDigit = true := by
      decide
    exact List.all_eq_true.1 numeric c mem

theorem isAllowed_iff_mem {c : Char} : isAllowed c = true ↔ c ∈ signs := by
  rw [isAllowed, Bool.or_eq_true, isDigit_iff_mem, List.contains_iff_mem, ← List.mem_append]
  rfl

/-- The characters that the check refuses are the strangers of the text as it was given. -/
theorem filter_compact (source : List Char) :
    (source.filter (!isBlank ·)).filter (!isAllowed ·) = strangers source := by
  rw [List.filter_filter, strangers]
  refine List.filter_congr fun c _ => ?_
  simp [← isBlank_iff_mem, ← isAllowed_iff_mem, and_comm]

theorem count_compact (c : Char) (sign : isBlank c = false) (source : List Char) :
    (source.filter (!isBlank ·)).count c = source.count c := by
  rw [List.count_filter]
  simp [sign]

/-- The text is empty without its blanks if it is nothing else. -/
theorem isEmpty_compact {source : List Char} :
    (source.filter (!isBlank ·)).isEmpty = true ↔ ∀ c ∈ source, c ∈ blanks := by
  simp [isBlank_iff_mem]

/-- The checks in terms of the text as it was given. -/
theorem accept_eq (source : List Char) :
    accept source =
      if (source.filter (!isBlank ·)).isEmpty then .error .empty
      else if strangers source ≠ [] then .error (.foreign (strangers source))
      else if source.count '(' ≠ source.count ')' then
        .error (.unbalanced (source.count '(') (source.count ')'))
      else .ok (source.filter (!isBlank ·)) := by
  have opening := count_compact '(' rfl source
  have closing := count_compact ')' rfl source
  by_cases blank : (source.filter (!isBlank ·)).isEmpty = true
  · rw [if_pos blank, accept, compact, if_pos blank]
    rfl
  · rw [if_neg blank, accept, compact, if_neg blank]
    simp only [bind, Except.bind, check, filter_compact, opening, closing]
    by_cases foreign : strangers source = []
    · by_cases equal : source.count '(' = source.count ')'
      · simp [foreign, equal, pure, Except.pure]
      · simp [foreign, equal]
    · simp [foreign]

/-- Nothing but blanks has no strangers and no parentheses. -/
theorem strangers_of_blank {source : List Char} (blank : ∀ c ∈ source, c ∈ blanks) :
    strangers source = [] := by
  refine List.filter_eq_nil_iff.2 fun c mem => ?_
  simp [blank c mem]

/-- A text is refused for the first of the faults that it has. -/
theorem accept_eq_error_iff {source : List Char} {fault : TextFault} :
    accept source = .error fault ↔ Refused source fault := by
  rw [accept_eq]
  constructor
  · intro refused
    split at refused
    case isTrue blank =>
      cases refused
      exact isEmpty_compact.1 blank
    case isFalse more =>
      split at refused
      case isTrue foreign =>
        cases refused
        exact ⟨foreign, rfl⟩
      case isFalse clean =>
        split at refused
        case isTrue differ =>
          cases refused
          exact ⟨mt isEmpty_compact.2 more, not_not.1 clean, rfl, rfl, differ⟩
        case isFalse => cases refused
  · intro refused
    cases fault with
    | empty => exact if_pos (isEmpty_compact.2 refused)
    | foreign characters =>
      obtain ⟨foreign, rfl⟩ := refused
      rw [if_neg (mt (strangers_of_blank ∘ isEmpty_compact.1) foreign), if_pos foreign]
    | unbalanced openings closings =>
      obtain ⟨more, clean, rfl, rfl, differ⟩ := refused
      rw [if_neg (mt isEmpty_compact.1 more), if_neg (not_not.2 clean), if_pos differ]

theorem exists_accept {source : List Char} (sound : ∀ fault, ¬ Refused source fault) :
    ∃ text, accept source = .ok text := by
  cases accepted : accept source with
  | error fault => exact absurd (accept_eq_error_iff.1 accepted) (sound fault)
  | ok text => exact ⟨text, rfl⟩

end Source

/-- An accepted text has tokens, and they have a postorder. -/
theorem postorderOf_of_accept {source : String} {text : List Char}
    (accepted : Source.accept source.toList = .ok text) :
    ∃ ts, Token.scan (String.ofList text) = .ok ts ∧ postorderOf source = .ok (postorder ts) := by
  obtain ⟨ts, read, -⟩ := exists_tokens text
  refine ⟨ts, ?_, postorderOf_eq_ok_iff.2 ⟨text, ts, accepted, read, rfl⟩⟩
  rw [Token.scan_eq_ofText, String.toList_ofList, read]

/-- The tokens of a text fail only if the text is refused. -/
theorem postorderOf_eq_error_iff {source : String} {failure : Failure} :
    postorderOf source = .error failure ↔
      ∃ fault, Source.Refused source.toList fault ∧ .text fault = failure := by
  simp only [← Source.accept_eq_error_iff]
  cases accepted : Source.accept source.toList with
  | error fault =>
    have failed : postorderOf source = .error (.text fault) := by
      simp only [postorderOf, accepted]
      rfl
    simp [failed]
  | ok text =>
    obtain ⟨ts, -, made⟩ := postorderOf_of_accept accepted
    simp [made]

/-- **Refusal.** A text is refused exactly for the faults that it shows as it was given: for being only
blanks, or else for its strangers, or else for the numbers of its parentheses. It is refused in the same
way whether its postorder is asked for or its result, with any number of places. Any other text has
tokens and a postorder, and its evaluation ends as the reduction of this postorder does. -/
theorem refusal_of_text (source : String) :
    (∀ fault, postorderOf source = .error (.text fault) ↔ Source.Refused source.toList fault) ∧
    (∀ places fault,
      evaluate places source = .error (.text fault) ↔ Source.Refused source.toList fault) ∧
    ((∀ fault, ¬ Source.Refused source.toList fault) → ∃ text ts,
      Source.accept source.toList = .ok text ∧ Token.scan (String.ofList text) = .ok ts ∧
      postorderOf source = .ok (postorder ts) ∧
      ∀ places,
        (∀ value, reduce (postorder ts) = .ok value →
          evaluate places source = .ok (.ofBinary64 (value.roundToPlaces places))) ∧
        ∀ fault, reduce (postorder ts) = .error fault →
          evaluate places source = .error (.value fault)) := by
  have converted : ∀ fault,
      postorderOf source = .error (.text fault) ↔ Source.Refused source.toList fault := by
    simp [postorderOf_eq_error_iff]
  refine ⟨converted, fun places fault => ?_, fun sound => ?_⟩
  · rw [evaluate_eq_error_iff, converted]
    simp
  · obtain ⟨text, accepted⟩ := Source.exists_accept sound
    obtain ⟨ts, read, made⟩ := postorderOf_of_accept accepted
    refine ⟨text, ts, accepted, read, made, fun places => ⟨fun value reduced => ?_, ?_⟩⟩
    · exact evaluate_eq_ok_iff.2 ⟨_, value, made, reduced, rfl⟩
    · intro fault reduced
      exact evaluate_eq_error_iff.2 (.inr ⟨_, fault, made, reduced, rfl⟩)

/-- `)é (` has a stranger though its parentheses agree in number and are out of order, and without the
stranger they are left to the reduction. -/
theorem refusal_of_accented_parentheses :
    postorderOf ")é (" = .error (.text (.foreign ['é'])) ∧
      (∀ places, evaluate places ")é (" = .error (.text (.foreign ['é']))) ∧
      ∀ places, evaluate places ") (" = .error (.value (.leftover 0)) := by
  have refused : Source.Refused ")é (".toList (.foreign ['é']) := ⟨by decide, rfl⟩
  have cleared : Source.accept ") (".toList = .ok [')', '('] := by decide
  have scanned : Token.scan (String.ofList [')', '(']) = .ok [.closing, .opening] := by
    decide +kernel
  have sound : ∀ fault, ¬ Source.Refused ") (".toList fault := by
    intro fault refused
    rw [← Source.accept_eq_error_iff, cleared] at refused
    cases refused
  obtain ⟨converted, evaluated, -⟩ := refusal_of_text ")é ("
  obtain ⟨text, ts, accepted, read, -, ends⟩ := (refusal_of_text ") (").2.2 sound
  refine ⟨(converted _).2 refused, fun places => (evaluated places _).2 refused, fun places => ?_⟩
  cases accepted.symm.trans cleared
  cases read.symm.trans scanned
  exact (ends places).2 _ rfl

end Calculator
