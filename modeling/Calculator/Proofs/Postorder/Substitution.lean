import Calculator.Proofs.Postorder.Nesting

/-!
# A group is one operand

A group whose parentheses are nested is converted by itself: what waits below its opening is neither
released nor seen until its closing parenthesis, and then the stack is as it was before. A reduction
leaves the operands below those of the group alone in the same way. A group that has a value can
therefore be replaced by this value in any list, whether the rest of the list is well-formed or not.
-/

namespace Calculator

open Token

namespace Pending

section

variable {p : Pending → Bool} (kept : p group = false) (stack below : List Pending)
include kept

theorem takeWhile_append_group : (stack ++ group :: below).takeWhile p = stack.takeWhile p := by
  induction stack with
  | nil => simp [kept]
  | cons entry rest ih =>
    by_cases released : p entry = true
    · simp [released, ih]
    · simp [released]

theorem dropWhile_append_group :
    (stack ++ group :: below).dropWhile p = stack.dropWhile p ++ group :: below := by
  induction stack with
  | nil => simp [kept]
  | cons entry rest ih =>
    by_cases released : p entry = true
    · simp [released, ih]
    · simp [released]

end

/-- A step above a group that it does not close leaves the group and all below it in their place. -/
theorem step_append_group {stack : List Pending} {t : Token}
    (inside : t = .closing → 0 < groups stack) (below : List Pending) :
    step (stack ++ group :: below) t = ((step stack t).1, (step stack t).2 ++ group :: below) := by
  cases t with
  | number value => rfl
  | operator op =>
    have kept : precedes op group = false := rfl
    simp only [step, takeWhile_append_group kept, dropWhile_append_group kept, List.cons_append]
  | opening => rfl
  | closing =>
    have kept : isOperator group = false := rfl
    simp only [step, takeWhile_append_group kept, dropWhile_append_group kept]
    have waiting := inside rfl
    rw [← groups_dropWhile kept stack] at waiting
    cases rest : stack.dropWhile isOperator with
    | nil => simp [rest, groups] at waiting
    | cons entry rest => rfl

/-- A run above a group that it does not close. -/
theorem run_append_group {stack : List Pending} {ts : List Token} {depth : Nat}
    (balanced : depthAfter? (groups stack) ts = some depth) (below : List Pending) :
    run (stack ++ group :: below) ts = ((run stack ts).1, (run stack ts).2 ++ group :: below) := by
  induction ts generalizing stack with
  | nil => rfl
  | cons t rest ih =>
    have inside : t = .closing → 0 < groups stack := by
      rintro rfl
      cases waiting : groups stack with
      | zero => simp [waiting, depthAfter?] at balanced
      | succ depth' => exact Nat.succ_pos _
    have later := ih (depthAfter?_step stack t rest depth balanced)
    simp only [run, step_append_group inside, later]

/-- Without groups a stack holds only operators. -/
theorem isOperator_of_groups_eq_zero {stack : List Pending} (ungrouped : groups stack = 0) :
    ∀ entry ∈ stack, isOperator entry = true := by
  intro entry mem
  cases entry with
  | operator op => rfl
  | group => exact absurd mem (List.count_eq_zero.1 ungrouped)

/-- A group of nested parentheses puts out its own conversion and leaves the stack as it was. -/
theorem run_group {ts : List Token} (balanced : depthAfter? 0 ts = some 0)
    (stack : List Pending) : run stack (.opening :: ts ++ [.closing]) = (postorder ts, stack) := by
  have start : depthAfter? (groups []) ts = some 0 := balanced
  have inside : run (group :: stack) ts = ((run [] ts).1, (run [] ts).2 ++ group :: stack) :=
    run_append_group start stack
  have operators := isOperator_of_groups_eq_zero (groups_run start)
  have released : step ((run [] ts).2 ++ group :: stack) .closing =
      (tokens (run [] ts).2, stack) := by
    simp only [step, List.takeWhile_append_of_pos operators,
      List.dropWhile_append_of_pos operators]
    simp [isOperator]
  have opened : run stack (.opening :: ts ++ [.closing]) =
      run (group :: stack) (ts ++ [.closing]) := by
    simp [run, step]
  rw [opened, run_append, inside]
  simp only [run, released, List.append_nil]
  rfl

/-- All that a run puts out in the end: its output, and what still waits then. -/
def complete (stack : List Pending) (ts : List Token) : List Token :=
  (run stack ts).1 ++ tokens (run stack ts).2

theorem complete_append (stack : List Pending) (ts us : List Token) :
    complete stack (ts ++ us) = (run stack ts).1 ++ complete (run stack ts).2 us := by
  simp only [complete, run_append, List.append_assoc]

theorem postorder_number (value : Binary64) (ts us : List Token) :
    postorder (ts ++ .number value :: us) =
      (run [] ts).1 ++ .number value :: complete (run [] ts).2 us := by
  show complete [] _ = _
  rw [complete_append]
  rfl

theorem postorder_group {group : List Token} (balanced : depthAfter? 0 group = some 0)
    (ts us : List Token) :
    postorder (ts ++ (.opening :: group ++ .closing :: us)) =
      (run [] ts).1 ++ (postorder group ++ complete (run [] ts).2 us) := by
  have split : .opening :: group ++ .closing :: us = (.opening :: group ++ [.closing]) ++ us := by
    simp
  show complete [] _ = _
  rw [complete_append, split, complete_append, run_group balanced]

end Pending

/-- A token among the numbers of a list is told by how many numbers come before it. -/
theorem append_number_inj {us us' ws ws' : List Token} {x x' : Binary64}
    (same : us ++ .number x :: ws = us' ++ .number x' :: ws')
    (before : (numbers us).length = (numbers us').length) : us = us' ∧ ws = ws' := by
  induction us generalizing us' with
  | nil =>
    cases us' with
    | nil => exact ⟨rfl, (List.cons.inj same).2⟩
    | cons t rest' =>
      obtain ⟨rfl, -⟩ := List.cons.inj same
      cases before
  | cons t rest ih =>
    cases us' with
    | nil =>
      obtain ⟨rfl, -⟩ := List.cons.inj same
      cases before
    | cons t' rest' =>
      obtain ⟨rfl, tails⟩ := List.cons.inj same
      have before : (numbers rest).length = (numbers rest').length := by
        rw [← List.singleton_append, ← List.singleton_append (l := rest')] at before
        rw [numbers_append, numbers_append, List.length_append, List.length_append] at before
        omega
      obtain ⟨rfl, rfl⟩ := ih tails before
      exact ⟨rfl, rfl⟩

/-- A reduction that ends well takes no operand from below its stack. -/
theorem reduceFrom_append_stack {stack stack' : List Binary64} {ts : List Token}
    (ran : reduceFrom stack ts = .ok stack') (below : List Binary64) :
    reduceFrom (stack ++ below) ts = .ok (stack' ++ below) := by
  induction ts generalizing stack with
  | nil =>
    cases ran
    rfl
  | cons t rest ih =>
    simp only [reduceFrom] at ran ⊢
    cases taken : reduceStep stack t with
    | error fault => simp [taken] at ran
    | ok next =>
      rw [taken] at ran
      have stepped : reduceStep (stack ++ below) t = .ok (next ++ below) := by
        rcases reduceStep_eq_ok taken with
          ⟨value, rfl, rfl⟩ | ⟨op, left, right, above, value, rfl, rfl, applied, rfl⟩
        · rfl
        · simp only [List.cons_append, reduceStep, applied]
          rfl
      rw [stepped]
      exact ih ran

/-- A list with a value acts on any operands as this value. -/
theorem reduceFrom_of_reduce {ts : List Token} {value : Binary64}
    (reduced : reduce ts = .ok value) (stack : List Binary64) (us : List Token) :
    reduceFrom stack (ts ++ us) = reduceFrom stack (.number value :: us) := by
  have alone := reduceFrom_append_stack (reduce_eq_ok_iff.1 reduced) stack
  rw [List.nil_append] at alone
  rw [reduceFrom_append, alone]
  rfl

theorem reduce_append_congr {us vs : List Token} (ts : List Token)
    (same : ∀ stack, reduceFrom stack us = reduceFrom stack vs) :
    reduce (ts ++ us) = reduce (ts ++ vs) := by
  have whole : reduceFrom [] (ts ++ us) = reduceFrom [] (ts ++ vs) := by
    rw [reduceFrom_append, reduceFrom_append]
    exact congrArg _ (funext same)
  rw [reduce, reduce, whole]

/-- **Substitution.** Let `ts` and `us` be any lists around an operand. The output has a part before
the operand and a part after it that are the same for every number. A nested group in the place of
the number is put out as its own conversion between these parts, and if it has a value, the whole
list is evaluated as with this value in its place, to the same value or the same fault. -/
theorem group_substitution {group : List Token} (nested : Nested group)
    (equal : group.count .opening = group.count .closing) (ts us : List Token) :
    (∃ front back, (numbers front).length = (numbers ts).length ∧
      ∀ x, postorder (ts ++ .number x :: us) = front ++ .number x :: back) ∧
    (∀ x front back, postorder (ts ++ .number x :: us) = front ++ .number x :: back →
      (numbers front).length = (numbers ts).length →
        postorder (ts ++ (.opening :: group ++ .closing :: us)) =
          front ++ postorder group ++ back) ∧
    ∀ value, reduce (postorder group) = .ok value →
      reduce (postorder (ts ++ (.opening :: group ++ .closing :: us))) =
        reduce (postorder (ts ++ .number value :: us)) := by
  have balanced := nested.depthAfter?_eq equal
  have before : (numbers (Pending.run [] ts).1).length = (numbers ts).length := by
    rw [Pending.numbers_run]
  refine ⟨⟨_, _, before, fun x => Pending.postorder_number x ts us⟩, ?_, ?_⟩
  · intro x front back converted place
    rw [Pending.postorder_number] at converted
    obtain ⟨rfl, rfl⟩ := append_number_inj converted (before.trans place.symm)
    rw [Pending.postorder_group balanced, List.append_assoc]
  · intro value reduced
    rw [Pending.postorder_group balanced, Pending.postorder_number]
    exact reduce_append_congr _ fun stack => reduceFrom_of_reduce reduced stack _

/-- In `2)-(1+2)*(` the group is one operand, though what is around it is no expression. -/
theorem group_substitution_in_fragments :
    Nested [.number (.ofInt 1), .operator .add, .number (.ofInt 2)] ∧
      postorder ([.number (.ofInt 2), .closing, .operator .sub] ++ .number (.ofInt 7) ::
        [.operator .mul, .opening]) =
          [.number (.ofInt 2)] ++ .number (.ofInt 7) :: [.opening, .operator .mul, .operator .sub] ∧
      postorder ([.number (.ofInt 2), .closing, .operator .sub] ++
        (.opening :: [.number (.ofInt 1), .operator .add, .number (.ofInt 2)] ++ .closing ::
          [.operator .mul, .opening])) =
        [.number (.ofInt 2)] ++
          postorder [.number (.ofInt 1), .operator .add, .number (.ofInt 2)] ++
          [.opening, .operator .mul, .operator .sub] ∧
      reduce (postorder [.number (.ofInt 1), .operator .add, .number (.ofInt 2)]) =
        .ok (.ofInt 3) ∧
      reduce (postorder ([.number (.ofInt 2), .closing, .operator .sub] ++
        (.opening :: [.number (.ofInt 1), .operator .add, .number (.ofInt 2)] ++ .closing ::
          [.operator .mul, .opening]))) =
        reduce (postorder ([.number (.ofInt 2), .closing, .operator .sub] ++
          .number (.ofInt 3) :: [.operator .mul, .opening])) := by
  have nested : Nested [.number (.ofInt 1), .operator .add, .number (.ofInt 2)] := by decide
  have sum : (Binary64.ofInt 1).add (.ofInt 2) = .ofInt 3 := by decide +kernel
  have value : reduce (postorder [.number (.ofInt 1), .operator .add, .number (.ofInt 2)]) =
      .ok (.ofInt 3) := by
    rw [← sum]
    rfl
  have law := group_substitution nested (by decide)
    [.number (.ofInt 2), .closing, .operator .sub] [.operator .mul, .opening]
  exact ⟨nested, rfl, law.2.1 (.ofInt 7) [.number (.ofInt 2)] _ rfl rfl, value, law.2.2 _ value⟩

end Calculator
