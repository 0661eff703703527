import Mathlib.Data.List.TakeWhile
import Calculator.Proofs.Postorder.Accounting
import Calculator.Proofs.Postorder.Substitution

/-!
# Closing parentheses without a group

A closing parenthesis that finds no group releases all that waits, as the end of the list does, and the
rest of the list starts on an empty stack. A list is therefore converted piece by piece between the
closing parentheses that have no partner, and no operator before one of them meets an operand or an
operator after it.
-/

namespace Calculator

open Token

namespace Pending

/-- Without a group a closing parenthesis releases everything. -/
theorem step_closing_of_groups_eq_zero {stack : List Pending} (ungrouped : groups stack = 0) :
    step stack .closing = (tokens stack, []) := by
  have operators := isOperator_of_groups_eq_zero ungrouped
  have taken : stack.takeWhile isOperator = stack := List.takeWhile_eq_self_iff.2 operators
  have left : stack.dropWhile isOperator = [] := List.dropWhile_eq_nil_iff.2 operators
  simp only [step, taken, left, List.drop_nil]

end Pending

/-- What is left open decides: after a list that leaves no group open, a closing parenthesis ends the
conversion and starts another. -/
theorem postorder_append_closing {ts : List Token} (closed : excessOpenings ts = 0) (us : List Token) :
    postorder (ts ++ .closing :: us) = postorder ts ++ postorder us := by
  have waiting : Pending.groups (Pending.run [] ts).2 = 0 := by
    rw [Pending.groups_run_eq, closed]
    simp [Pending.groups]
  have released := Pending.step_closing_of_groups_eq_zero waiting
  have later : Pending.complete (Pending.run [] ts).2 (.closing :: us) =
      Pending.tokens (Pending.run [] ts).2 ++ postorder us := by
    simp only [Pending.complete, Pending.run, released, List.append_assoc]
    rfl
  calc postorder (ts ++ .closing :: us)
      = Pending.complete [] (ts ++ .closing :: us) := rfl
    _ = (Pending.run [] ts).1 ++ Pending.complete (Pending.run [] ts).2 (.closing :: us) :=
      Pending.complete_append ..
    _ = (Pending.run [] ts).1 ++ (Pending.tokens (Pending.run [] ts).2 ++ postorder us) := by
      rw [later]
    _ = postorder ts ++ postorder us := (List.append_assoc ..).symm

namespace Token

/-- In front of a closing parenthesis without a partner no group is open. -/
theorem excessOpenings_take {ts : List Token} {j : Nat} (alone : j ∈ unpairedClosings ts) :
    excessOpenings (ts.take j) = 0 := by
  obtain ⟨closes, unpaired⟩ := mem_unpairedClosings.1 alone
  by_contra waiting
  obtain ⟨front, mid, split, balanced⟩ := exists_opening_balanced (Nat.pos_of_ne_zero waiting)
  have len : (ts.take j).length = j := by
    have bound := (List.getElem?_eq_some_iff.1 closes).1
    simp only [List.length_take]
    omega
  refine unpaired front.length (paired_iff.2 ⟨front, mid, ts.drop (j + 1), ?_, rfl, ?_, balanced⟩)
  · rw [← List.cons_append, ← List.append_assoc, ← split]
    exact eq_append_of_getElem? closes
  · rw [split] at len
    simp only [List.length_append, List.length_cons] at len
    omega

theorem excessClosings_append (ts us : List Token) :
    excessClosings (ts ++ us) = excessClosings ts + (excessClosings us - excessOpenings ts) := by
  induction ts with
  | nil => simp [excessClosings, excessOpenings]
  | cons t rest ih =>
    cases t with
    | number value => exact ih
    | operator op => exact ih
    | opening =>
      simp only [List.cons_append, excessClosings, excessOpenings, ih]
      split
      · omega
      · omega
    | closing =>
      simp only [List.cons_append, excessClosings, excessOpenings, ih]
      omega

/-- The closing parentheses without a partner divide a list into balanced pieces and a nested one. -/
theorem exists_pieces (ts : List Token) : ∃ (pieces : List (List Token)) (last : List Token),
    ts = pieces.flatMap (· ++ [.closing]) ++ last ∧ (∀ piece ∈ pieces, Balanced piece) ∧
      Nested last ∧ pieces.length = excessClosings ts := by
  by_cases nested : Nested ts
  · exact ⟨[], ts, rfl, by simp, nested, (nested_iff_excessClosings.1 nested).symm⟩
  · obtain ⟨mid, back, split, balanced⟩ := exists_balanced_closing nested
    have shorter : back.length < ts.length := by
      rw [split]
      simp only [List.length_append, List.length_cons]
      omega
    obtain ⟨pieces, last, rest, allBalanced, nestedLast, count⟩ := exists_pieces back
    refine ⟨mid :: pieces, last, ?_, ?_, nestedLast, ?_⟩
    · rw [split, rest]
      simp
    · simpa using ⟨balanced, allBalanced⟩
    · obtain ⟨closings, openings⟩ := balanced_iff_excess.1 balanced
      rw [split, excessClosings_append, closings, openings, excessClosings, List.length_cons, count]
      omega
termination_by ts.length

end Token

/-- Balanced pieces with a closing parenthesis after each are converted one by one. -/
theorem postorder_pieces {pieces : List (List Token)} (balanced : ∀ piece ∈ pieces, Balanced piece)
    (last : List Token) :
    postorder (pieces.flatMap (· ++ [.closing]) ++ last) =
      pieces.flatMap postorder ++ postorder last := by
  induction pieces with
  | nil => rfl
  | cons piece rest ih =>
    have first := (balanced_iff_excess.1 (balanced piece List.mem_cons_self)).2
    have later := ih fun p mem => balanced p (List.mem_cons_of_mem piece mem)
    have split : (piece :: rest).flatMap (· ++ [.closing]) ++ last =
        piece ++ .closing :: (rest.flatMap (· ++ [.closing]) ++ last) := by simp
    rw [split, postorder_append_closing first, later, List.flatMap_cons, List.append_assoc]

/-- **Boundaries.** A balanced list, a closing parenthesis and any other list are converted to the
conversions of the two lists one after the other, and reduced in the same way. So it is at every closing
parenthesis without a partner in any list: the list is converted to the conversions of the pieces
between these parentheses. -/
theorem postorder_boundary (ts us : List Token) :
    (Balanced ts →
      postorder (ts ++ .closing :: us) = postorder ts ++ postorder us ∧
        ∀ stack, reduceFrom stack (postorder (ts ++ .closing :: us)) =
          (reduceFrom stack (postorder ts)).bind (reduceFrom · (postorder us))) ∧
    (∀ j ∈ unpairedClosings ts,
      postorder ts = postorder (ts.take j) ++ postorder (ts.drop (j + 1))) ∧
    ∃ (pieces : List (List Token)) (last : List Token),
      ts = pieces.flatMap (· ++ [.closing]) ++ last ∧
      (∀ piece ∈ pieces, Balanced piece) ∧ Nested last ∧
      pieces.length = (unpairedClosings ts).card ∧
      postorder ts = pieces.flatMap postorder ++ postorder last := by
  refine ⟨fun balanced => ?_, fun j alone => ?_, ?_⟩
  · have converted := postorder_append_closing (balanced_iff_excess.1 balanced).2 us
    refine ⟨converted, fun stack => ?_⟩
    rw [converted, reduceFrom_append]
  · have split := eq_append_of_getElem? (mem_unpairedClosings.1 alone).1
    conv_lhs => rw [split]
    exact postorder_append_closing (excessOpenings_take alone) _
  · obtain ⟨pieces, last, split, balanced, nested, count⟩ := exists_pieces ts
    refine ⟨pieces, last, split, balanced, nested, ?_, ?_⟩
    · rw [card_unpairedClosings, count]
    · rw [split, postorder_pieces balanced]

/-- `(1)+` is balanced though its addition lacks an operand, and the parenthesis after it has no partner
in `(1)+)2*(`. -/
theorem postorder_boundary_after_addition :
    Balanced [.opening, .number (.ofInt 1), .closing, .operator .add] ∧
      postorder ([.opening, .number (.ofInt 1), .closing, .operator .add] ++ .closing ::
          [.number (.ofInt 2), .operator .mul, .opening]) =
        postorder [.opening, .number (.ofInt 1), .closing, .operator .add] ++
          postorder [.number (.ofInt 2), .operator .mul, .opening] ∧
      4 ∈ unpairedClosings [.opening, .number (.ofInt 1), .closing, .operator .add, .closing,
        .number (.ofInt 2), .operator .mul, .opening] ∧
      postorder [.opening, .number (.ofInt 1), .closing, .operator .add, .closing,
          .number (.ofInt 2), .operator .mul, .opening] =
        [.number (.ofInt 1), .operator .add] ++
          [.number (.ofInt 2), .opening, .operator .mul] := by
  have balanced : Balanced [.opening, .number (.ofInt 1), .closing, .operator .add] := by decide
  have alone : 4 ∈ unpairedClosings [.opening, .number (.ofInt 1), .closing, .operator .add,
      .closing, .number (.ofInt 2), .operator .mul, .opening] := by decide +kernel
  exact ⟨balanced, ((postorder_boundary _ _).1 balanced).1, alone,
    (postorder_boundary _ []).2.1 4 alone⟩

end Calculator
