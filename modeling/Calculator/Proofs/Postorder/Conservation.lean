import Calculator.Postorder

/-!
# What the conversion keeps

The conversion passes every number on in its place and every operator exactly once. Of the
parentheses it passes on only openings, namely those of the groups that still wait at the end, and
as long as every closing parenthesis has a group to close, these are as many as the groups that are
open after the list.
-/

namespace Calculator

namespace Token

/-- The value of a number. -/
def number? : Token → Option Binary64
  | number value => some value
  | _ => none

/-- The operator of an operator token. -/
def operator? : Token → Option Operator
  | operator op => some op
  | _ => none

/-- The numbers of a list, in their order. -/
def numbers (ts : List Token) : List Binary64 := ts.filterMap number?

/-- The operators of a list, in their order. -/
def operators (ts : List Token) : List Operator := ts.filterMap operator?

section

variable (value : Binary64) (op : Operator) (ts : List Token)

@[simp] theorem numbers_number : numbers (number value :: ts) = value :: numbers ts := rfl
@[simp] theorem numbers_operator : numbers (operator op :: ts) = numbers ts := rfl
@[simp] theorem numbers_opening : numbers (opening :: ts) = numbers ts := rfl
@[simp] theorem numbers_closing : numbers (closing :: ts) = numbers ts := rfl

@[simp] theorem operators_number : operators (number value :: ts) = operators ts := rfl
@[simp] theorem operators_operator : operators (operator op :: ts) = op :: operators ts := rfl
@[simp] theorem operators_opening : operators (opening :: ts) = operators ts := rfl
@[simp] theorem operators_closing : operators (closing :: ts) = operators ts := rfl

end

@[simp] theorem numbers_append (ts us : List Token) : numbers (ts ++ us) = numbers ts ++ numbers us :=
  List.filterMap_append

@[simp] theorem operators_append (ts us : List Token) :
    operators (ts ++ us) = operators ts ++ operators us :=
  List.filterMap_append

/-- The number of groups that are open after a list, from those open before it, unless a closing
parenthesis of the list has no group to close. -/
def depthAfter? : (depth : Nat) → List Token → Option Nat
  | depth, [] => some depth
  | depth, opening :: rest => depthAfter? (depth + 1) rest
  | 0, closing :: _ => none
  | depth + 1, closing :: rest => depthAfter? depth rest
  | depth, number _ :: rest => depthAfter? depth rest
  | depth, operator _ :: rest => depthAfter? depth rest

@[simp] theorem depthAfter?_number (depth : Nat) (value : Binary64) (ts : List Token) :
    depthAfter? depth (number value :: ts) = depthAfter? depth ts := by
  cases depth <;> rfl

@[simp] theorem depthAfter?_operator (depth : Nat) (op : Operator) (ts : List Token) :
    depthAfter? depth (operator op :: ts) = depthAfter? depth ts := by
  cases depth <;> rfl

end Token

open Token

namespace Pending

/-- The entries of the stack as they would be put out. -/
abbrev tokens (stack : List Pending) : List Token := stack.map token

theorem numbers_tokens (stack : List Pending) : numbers (tokens stack) = [] := by
  refine List.filterMap_eq_nil_iff.2 fun t mem => ?_
  obtain ⟨entry, -, rfl⟩ := List.mem_map.1 mem
  cases entry <;> rfl

/-- The operators of a stack wait in what `p` takes from its top or in the rest. -/
theorem count_operators_split (p : Pending → Bool) (stack : List Pending) (op : Operator) :
    (operators (tokens (stack.takeWhile p))).count op +
      (operators (tokens (stack.dropWhile p))).count op = (operators (tokens stack)).count op := by
  rw [← List.count_append, ← operators_append, ← List.map_append, List.takeWhile_append_dropWhile]

/-- Below the operators on top there is a group or nothing, so that closing a group drops no
operator. -/
theorem operators_drop_group (stack : List Pending) :
    operators (tokens ((stack.dropWhile isOperator).drop 1)) =
      operators (tokens (stack.dropWhile isOperator)) := by
  induction stack with
  | nil => rfl
  | cons entry rest ih =>
    cases entry with
    | operator op => exact ih
    | group => rfl

theorem numbers_step (stack : List Pending) (t : Token) :
    numbers (step stack t).1 = numbers [t] := by
  cases t with
  | number value => rfl
  | operator op => exact numbers_tokens _
  | opening => rfl
  | closing => exact numbers_tokens _

/-- A step moves operators from the stack to the output and puts its own on the stack. -/
theorem count_operators_step (stack : List Pending) (t : Token) (op : Operator) :
    (operators (step stack t).1).count op + (operators (tokens (step stack t).2)).count op =
      (operators [t]).count op + (operators (tokens stack)).count op := by
  cases t with
  | number value => rfl
  | operator later =>
    have split := count_operators_split (precedes later) stack op
    have pushed : operators (tokens (step stack (.operator later)).2) =
        operators [.operator later] ++ operators (tokens (stack.dropWhile (precedes later))) := rfl
    rw [pushed, List.count_append, ← split]
    exact Nat.add_left_comm ..
  | opening => rfl
  | closing =>
    have split := count_operators_split isOperator stack op
    simp only [step, operators_drop_group]
    rw [split]
    exact (Nat.zero_add _).symm

theorem numbers_run (stack : List Pending) (ts : List Token) :
    numbers (run stack ts).1 = numbers ts := by
  induction ts generalizing stack with
  | nil => rfl
  | cons t rest ih =>
    simp only [run, numbers_append, numbers_step, ih]
    rw [← numbers_append, List.singleton_append]

theorem count_operators_run (stack : List Pending) (ts : List Token) (op : Operator) :
    (operators (run stack ts).1).count op + (operators (tokens (run stack ts).2)).count op =
      (operators ts).count op + (operators (tokens stack)).count op := by
  induction ts generalizing stack with
  | nil => rfl
  | cons t rest ih =>
    have first := count_operators_step stack t op
    have later := ih (step stack t).2
    have whole : operators (t :: rest) = operators [t] ++ operators rest := by
      rw [← operators_append, List.singleton_append]
    simp only [run, operators_append, whole, List.count_append]
    omega

/-- No opening parenthesis leaves the stack during a run. -/
theorem opening_notMem_step (stack : List Pending) (t : Token) : .opening ∉ (step stack t).1 := by
  have waiting : ∀ p : Pending → Bool, p group = false →
      .opening ∉ tokens (stack.takeWhile p) := by
    intro p kept mem
    obtain ⟨entry, taken, eq⟩ := List.mem_map.1 mem
    have released : p entry = true := List.all_eq_true.1 List.all_takeWhile entry taken
    cases entry with
    | operator op => cases eq
    | group => exact absurd (kept.symm.trans released) (by decide)
  cases t with
  | number value => simp [step]
  | operator op => exact waiting (precedes op) rfl
  | opening => simp [step]
  | closing => exact waiting isOperator rfl

theorem opening_notMem_run (stack : List Pending) (ts : List Token) :
    .opening ∉ (run stack ts).1 := by
  induction ts generalizing stack with
  | nil => simp [run]
  | cons t rest ih =>
    simp only [run, List.mem_append, not_or]
    exact ⟨opening_notMem_step stack t, ih _⟩

/-- Nothing that waits is a closing parenthesis. -/
theorem closing_notMem_tokens (stack : List Pending) : .closing ∉ tokens stack := by
  intro mem
  obtain ⟨entry, -, eq⟩ := List.mem_map.1 mem
  cases entry <;> cases eq

theorem closing_notMem_run (stack : List Pending) (ts : List Token) :
    .closing ∉ (run stack ts).1 := by
  induction ts generalizing stack with
  | nil => simp [run]
  | cons t rest ih =>
    have first : .closing ∉ (step stack t).1 := by
      cases t with
      | number value => simp [step]
      | operator op => exact closing_notMem_tokens _
      | opening => simp [step]
      | closing => exact closing_notMem_tokens _
    simp only [run, List.mem_append, not_or]
    exact ⟨first, ih _⟩

/-- The number of groups that wait on a stack. -/
def groups (stack : List Pending) : Nat := stack.count group

theorem groups_dropWhile {p : Pending → Bool} (kept : p group = false) (stack : List Pending) :
    groups (stack.dropWhile p) = groups stack := by
  induction stack with
  | nil => rfl
  | cons entry rest ih =>
    cases entry with
    | group => simp [List.dropWhile, kept]
    | operator op =>
      by_cases released : p (operator op) = true
      · simpa [List.dropWhile, released, groups] using ih
      · simp [List.dropWhile, released]

theorem groups_drop_group (stack : List Pending) :
    groups ((stack.dropWhile isOperator).drop 1) = groups stack - 1 := by
  induction stack with
  | nil => rfl
  | cons entry rest ih =>
    cases entry with
    | operator op => simpa [List.dropWhile, isOperator, groups] using ih
    | group => simp [List.dropWhile, isOperator, groups]

theorem groups_step_operator (stack : List Pending) (op : Operator) :
    groups (step stack (.operator op)).2 = groups stack := by
  rw [← groups_dropWhile (p := precedes op) rfl stack]
  simp [step, groups]

theorem groups_step_opening (stack : List Pending) :
    groups (step stack .opening).2 = groups stack + 1 := by
  simp [step, groups]

theorem groups_step_closing (stack : List Pending) :
    groups (step stack .closing).2 = groups stack - 1 :=
  groups_drop_group stack

/-- A step keeps as many groups on the stack as are open. -/
theorem depthAfter?_step (stack : List Pending) (t : Token) (rest : List Token) (depth : Nat)
    (balanced : depthAfter? (groups stack) (t :: rest) = some depth) :
    depthAfter? (groups (step stack t).2) rest = some depth := by
  cases t with
  | number value => rwa [depthAfter?_number] at balanced
  | operator op => rwa [groups_step_operator, ← depthAfter?_operator _ op]
  | opening =>
    rw [groups_step_opening]
    exact balanced
  | closing =>
    rw [groups_step_closing]
    cases waiting : groups stack with
    | zero => simp [waiting, depthAfter?] at balanced
    | succ depth' => simpa [waiting, depthAfter?] using balanced

/-- A run on as many groups as are open before a list leaves as many as are open after it. -/
theorem groups_run {stack : List Pending} {ts : List Token} {depth : Nat}
    (balanced : depthAfter? (groups stack) ts = some depth) :
    groups (run stack ts).2 = depth := by
  induction ts generalizing stack with
  | nil => exact Option.some.inj balanced
  | cons t rest ih => exact ih (depthAfter?_step stack t rest depth balanced)

end Pending

theorem numbers_postorder (ts : List Token) : numbers (postorder ts) = numbers ts := by
  rw [postorder, numbers_append, Pending.numbers_run, Pending.numbers_tokens, List.append_nil]

theorem operators_postorder (ts : List Token) : (operators (postorder ts)).Perm (operators ts) := by
  refine List.perm_iff_count.2 fun op => ?_
  rw [postorder, operators_append, List.count_append]
  exact Pending.count_operators_run [] ts op

/-- The openings in the output are those of the groups that still wait at the end. -/
theorem opening_mem_postorder_iff {ts : List Token} :
    .opening ∈ postorder ts ↔ 0 < Pending.groups (Pending.run [] ts).2 := by
  have ran := Pending.opening_notMem_run [] ts
  rw [Pending.groups, List.count_pos_iff, postorder, List.mem_append]
  constructor
  · intro mem
    obtain ⟨entry, mem, eq⟩ := List.mem_map.1 (mem.resolve_left ran)
    cases entry with
    | operator op => cases eq
    | group => exact mem
  · intro mem
    exact .inr (List.mem_map.2 ⟨.group, mem, rfl⟩)

/-- The output has an opening exactly if a group is open after the list. -/
theorem opening_mem_postorder {ts : List Token} {depth : Nat}
    (balanced : depthAfter? 0 ts = some depth) : .opening ∈ postorder ts ↔ 0 < depth := by
  have waiting : Pending.groups (Pending.run [] ts).2 = depth := Pending.groups_run balanced
  rw [opening_mem_postorder_iff, waiting]

/-- No closing parenthesis is ever put out. -/
theorem closing_notMem_postorder (ts : List Token) : .closing ∉ postorder ts := by
  rw [postorder, List.mem_append, not_or]
  exact ⟨Pending.closing_notMem_run [] ts, Pending.closing_notMem_tokens _⟩

end Calculator
