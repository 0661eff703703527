import Mathlib.Data.List.Chain
import Calculator.Proofs.Grammar.Recognition
import Calculator.Proofs.Postorder.Operands

/-!
# Lists that have a value

Nothing but the counts of operands is checked when a list is converted and reduced, so that a list
can have a value and not be derived: in `(1)(2)+` the operator follows both of its operands. Such a
list has two operands beside each other, or a closing parenthesis without a group. These are the
only ways. With an operator between any two operands, a list with one number more than operators
has no place left for an operator anywhere else.
-/

namespace Calculator

open Token

namespace Token

/-- An operand can end with the token. -/
def endsOperand : Token → Bool
  | number _ | closing => true
  | operator _ | opening => false

/-- An operand can start with the token. -/
def startsOperand : Token → Bool
  | number _ | opening => true
  | operator _ | closing => false

/-- Not the end of an operand directly before the start of another. -/
def Apart (t u : Token) : Prop :=
  t.endsOperand = true → u.startsOperand = false

instance instDecidableApart (t u : Token) : Decidable (Apart t u) :=
  inferInstanceAs (Decidable (_ → _))

/-- Tokens in order are apart from each other, and from the token before them if that ends an
operand exactly where an operator is expected. -/
theorem InOrder.isChain {expecting : Bool} {depth : Nat} {ts : List Token}
    (inOrder : InOrder expecting depth ts) {before : Token}
    (ends : before.endsOperand = !expecting) : (before :: ts).IsChain Apart := by
  induction inOrder generalizing before with
  | done => exact List.isChain_singleton _
  | number value _ ih =>
    refine List.isChain_cons_cons.2 ⟨fun ended => ?_, ih rfl⟩
    rw [ends] at ended
    cases ended
  | opening _ ih =>
    refine List.isChain_cons_cons.2 ⟨fun ended => ?_, ih rfl⟩
    rw [ends] at ended
    cases ended
  | operator op _ ih => exact List.isChain_cons_cons.2 ⟨fun _ => rfl, ih rfl⟩
  | closing _ ih => exact List.isChain_cons_cons.2 ⟨fun _ => rfl, ih rfl⟩

theorem InOrder.depthAfter?_eq {expecting : Bool} {depth : Nat} {ts : List Token}
    (inOrder : InOrder expecting depth ts) : depthAfter? depth ts = some 0 := by
  induction inOrder with
  | done => rfl
  | number _ _ ih => rwa [depthAfter?_number]
  | opening _ ih => exact ih
  | operator _ _ ih => rwa [depthAfter?_operator]
  | closing _ ih => exact ih

/-- The operands that a list still needs after a token: one, unless the token ends an operand. -/
def needed (before : Token) : Nat := if before.endsOperand then 0 else 1

/-- An operand starts only where the token before it needs one. -/
theorem Apart.needed_eq {before t : Token} (apart : Apart before t)
    (starts : t.startsOperand = true) : before.endsOperand = false ∧ needed before = 1 := by
  cases ends : before.endsOperand with
  | false => exact ⟨rfl, by simp [needed, ends]⟩
  | true => exact absurd ((apart ends).symm.trans starts) (by decide)

/-- A list of tokens that are apart has at most as many numbers as its operators and the place
before it take. If it has as many, each token stands where it is expected. An operator or a closing
parenthesis that comes where an operand is needed leaves the count short for good. -/
theorem length_numbers_le_of_isChain {ts : List Token} {before : Token} {depth : Nat}
    (apart : (before :: ts).IsChain Apart) (closed : depthAfter? depth ts = some 0) :
    (numbers ts).length ≤ (operators ts).length + needed before ∧
      ((numbers ts).length = (operators ts).length + needed before →
        InOrder (!before.endsOperand) depth ts) := by
  induction ts generalizing before depth with
  | nil =>
    cases closed
    refine ⟨Nat.zero_le _, fun full => ?_⟩
    cases ends : before.endsOperand with
    | true => exact .done
    | false => simp [numbers, operators, needed, ends] at full
  | cons t rest ih =>
    obtain ⟨first, later⟩ := List.isChain_cons_cons.1 apart
    cases t with
    | number value =>
      rw [depthAfter?_number] at closed
      obtain ⟨ends, place⟩ := first.needed_eq rfl
      obtain ⟨bound, full⟩ := ih later closed
      have need : needed (.number value) = 0 := rfl
      rw [numbers_number, operators_number, List.length_cons, ends]
      exact ⟨by omega, fun same => .number value (full (by omega))⟩
    | opening =>
      obtain ⟨ends, place⟩ := first.needed_eq rfl
      obtain ⟨bound, full⟩ := ih later closed
      have one : needed .opening = 1 := rfl
      rw [numbers_opening, operators_opening, ends]
      exact ⟨by omega, fun same => .opening (full (by omega))⟩
    | operator op =>
      rw [depthAfter?_operator] at closed
      obtain ⟨bound, full⟩ := ih later closed
      have one : needed (.operator op) = 1 := rfl
      rw [numbers_operator, operators_operator, List.length_cons]
      refine ⟨by omega, fun same => ?_⟩
      cases ends : before.endsOperand with
      | true => exact .operator op (full (by omega))
      | false =>
        have place : needed before = 1 := by simp [needed, ends]
        omega
    | closing =>
      cases depth with
      | zero => cases closed
      | succ depth =>
        obtain ⟨bound, full⟩ := ih later closed
        have need : needed .closing = 0 := rfl
        rw [numbers_closing, operators_closing]
        refine ⟨by omega, fun same => ?_⟩
        cases ends : before.endsOperand with
        | true =>
          have place : needed before = 0 := by simp [needed, ends]
          exact .closing (full (by omega))
        | false =>
          have place : needed before = 1 := by simp [needed, ends]
          omega

end Token

/-- **Acceptance.** Of the lists that have a value, the derived ones are those with no two operands
beside each other in which every closing parenthesis has a group. -/
theorem derives_iff_of_accepted {ts : List Token} {value : Binary64}
    (accepted : reduce (postorder ts) = .ok value) :
    (∃ e, Derives tokenAlphabet .sum e ts) ↔
      ts.IsChain Apart ∧ ∃ depth, depthAfter? 0 ts = some depth := by
  constructor
  · intro derives
    have inOrder := inOrder_iff_derives.2 derives
    have apart : (.opening :: ts).IsChain Apart := inOrder.isChain rfl
    exact ⟨apart.tail, 0, inOrder.depthAfter?_eq⟩
  · rintro ⟨apart, depth, balanced⟩
    have ran := reduce_eq_ok_iff.1 accepted
    have closed : depth = 0 := by
      have open_iff := opening_mem_postorder balanced
      have absent := (parenthesis_notMem_of_reduceFrom ran).1
      rw [open_iff] at absent
      omega
    subst closed
    have counted := length_reduceFrom ran
    rw [numbers_postorder, (operators_postorder ts).length_eq] at counted
    have fromStart : (.opening :: ts).IsChain Apart :=
      List.isChain_cons.2 ⟨fun _ _ => nofun, apart⟩
    have inOrder := (length_numbers_le_of_isChain fromStart balanced).2
    refine inOrder_iff_derives.1 (inOrder ?_)
    have one : needed .opening = 1 := rfl
    simp only [List.length_singleton, List.length_nil] at counted
    omega

/-- In `(1)+2` the operands have an operator between them. -/
theorem derives_iff_of_accepted_sum :
    reduce (postorder [.opening, .number (.ofInt 1), .closing, .operator .add,
        .number (.ofInt 2)]) = .ok (.ofInt 3) ∧
      ((∃ e, Derives tokenAlphabet .sum e [.opening, .number (.ofInt 1), .closing,
          .operator .add, .number (.ofInt 2)]) ↔
        [.opening, .number (.ofInt 1), .closing, .operator .add,
            .number (.ofInt 2)].IsChain Apart ∧
          ∃ depth, depthAfter? 0 [.opening, .number (.ofInt 1), .closing, .operator .add,
            .number (.ofInt 2)] = some depth) := by
  have sum : (Binary64.ofInt 1).add (.ofInt 2) = .ofInt 3 := by decide +kernel
  have accepted : reduce (postorder [.opening, .number (.ofInt 1), .closing, .operator .add,
      .number (.ofInt 2)]) = .ok (.ofInt 3) := by
    rw [← sum]
    rfl
  exact ⟨accepted, derives_iff_of_accepted accepted⟩

/-- Two groups beside each other are in no derived list. -/
theorem not_inOrder_of_groups (x y : Binary64) (rest : List Token) :
    ¬ InOrder true 0 (.opening :: .number x :: .closing :: .opening :: .number y :: rest) := by
  intro inOrder
  cases inOrder with
  | opening inside =>
    cases inside with
    | number _ closed =>
      cases closed with
      | closing after => cases after

/-- In `(1)(2)+` the operator finds both operands, but no rule derives the list. -/
theorem accepted_of_juxtaposed_groups :
    reduce (postorder [.opening, .number (.ofInt 1), .closing, .opening, .number (.ofInt 2),
        .closing, .operator .add]) = .ok (.ofInt 3) ∧
      ¬ ∃ e, Derives tokenAlphabet .sum e [.opening, .number (.ofInt 1), .closing, .opening,
        .number (.ofInt 2), .closing, .operator .add] := by
  have sum : (Binary64.ofInt 1).add (.ofInt 2) = .ofInt 3 := by decide +kernel
  refine ⟨?_, fun derives => not_inOrder_of_groups _ _ _ (inOrder_iff_derives.2 derives)⟩
  rw [← sum]
  rfl

end Calculator
