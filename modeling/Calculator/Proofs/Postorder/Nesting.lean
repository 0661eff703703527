import Calculator.Proofs.Postorder.Operands

/-!
# Parentheses out of order

A text is accepted as soon as its parentheses agree in number, and a closing parenthesis without a
group leaves no trace in the conversion. If the parentheses agree in number but are not nested, some
closing parenthesis is spent without a group, so that some group is never closed. Its opening waits
until the end and stops the reduction. If they are nested, the output holds no parenthesis, and the
operands left over at the end are told by the counts of numbers and operators.
-/

namespace Calculator

open Token

namespace Token

/-- No part at the front has more closing parentheses than opening ones. -/
def Nested (ts : List Token) : Prop :=
  ∀ front, front <+: ts → front.count .closing ≤ front.count .opening

/-- A list with a depth closes at most the groups that are open, at every point of it. -/
theorem exists_depthAfter?_iff {depth : Nat} {ts : List Token} :
    (∃ after, depthAfter? depth ts = some after) ↔
      ∀ front, front <+: ts → front.count .closing ≤ depth + front.count .opening := by
  induction ts generalizing depth with
  | nil => simp [depthAfter?]
  | cons t rest ih =>
    -- The fronts of the list are the empty one, and those of the rest with `t` before them.
    have fronts : (∀ front, front <+: t :: rest →
        front.count .closing ≤ depth + front.count .opening) ↔
        ∀ front, front <+: rest →
          (t :: front).count .closing ≤ depth + (t :: front).count .opening := by
      simp only [List.prefix_cons_iff]
      constructor
      · intro bounded front part
        exact bounded _ (.inr ⟨front, rfl, part⟩)
      · rintro bounded _ (rfl | ⟨front, rfl, part⟩)
        · exact Nat.zero_le _
        · exact bounded front part
    rw [fronts]
    cases t with
    | number value => simpa using ih
    | operator op => simpa using ih
    | opening =>
      rw [depthAfter?, ih]
      simp [Nat.add_assoc, Nat.add_comm 1]
    | closing =>
      cases depth with
      | zero =>
        simp only [depthAfter?]
        refine iff_of_false (by simp) fun bounded => ?_
        simpa using bounded [] List.nil_prefix
      | succ depth =>
        rw [depthAfter?, ih]
        simp [Nat.succ_add]

/-- The closing parentheses without a partner, counted from the end. -/
def excessClosings : List Token → Nat
  | [] => 0
  | opening :: rest => excessClosings rest - 1
  | closing :: rest => excessClosings rest + 1
  | number _ :: rest => excessClosings rest
  | operator _ :: rest => excessClosings rest

/-- The opening parentheses without a partner, counted from the end. -/
def excessOpenings : List Token → Nat
  | [] => 0
  | opening :: rest => if excessClosings rest = 0 then excessOpenings rest + 1 else excessOpenings rest
  | closing :: rest => excessOpenings rest
  | number _ :: rest => excessOpenings rest
  | operator _ :: rest => excessOpenings rest

/-- The counts from the end tell all closing and all opening parentheses but those of pairs. -/
theorem count_closing_add_excessOpenings (ts : List Token) :
    ts.count .closing + excessOpenings ts = ts.count .opening + excessClosings ts := by
  induction ts with
  | nil => rfl
  | cons t rest ih =>
    cases t with
    | number value => simpa [excessOpenings, excessClosings] using ih
    | operator op => simpa [excessOpenings, excessClosings] using ih
    | opening =>
      simp only [excessOpenings, excessClosings, List.count_cons_self]
      rw [List.count_cons_of_ne (by decide)]
      split
      · omega
      · omega
    | closing =>
      simp only [excessOpenings, excessClosings, List.count_cons_self]
      rw [List.count_cons_of_ne (by decide)]
      omega

/-- The counts from the end tell at which depth a list ends. -/
theorem depthAfter?_eq (depth : Nat) (ts : List Token) :
    depthAfter? depth ts =
      if excessClosings ts ≤ depth then some (excessOpenings ts + (depth - excessClosings ts))
      else none := by
  induction ts generalizing depth with
  | nil => simp [depthAfter?, excessClosings, excessOpenings]
  | cons t rest ih =>
    cases t with
    | number value =>
      rw [depthAfter?_number, ih]
      rfl
    | operator op =>
      rw [depthAfter?_operator, ih]
      rfl
    | opening =>
      rw [depthAfter?, ih]
      simp only [excessClosings, excessOpenings]
      grind
    | closing =>
      cases depth with
      | zero => simp [depthAfter?, excessClosings]
      | succ depth =>
        rw [depthAfter?, ih]
        simp only [excessClosings, excessOpenings]
        grind

/-- Every opening parenthesis adds to the depth and every closing one takes from it. -/
theorem depthAfter?_count {depth after : Nat} {ts : List Token}
    (balanced : depthAfter? depth ts = some after) :
    after + ts.count .closing = depth + ts.count .opening := by
  have counted := count_closing_add_excessOpenings ts
  rw [depthAfter?_eq] at balanced
  split at balanced
  · cases balanced
    omega
  · cases balanced

theorem nested_iff_exists_depthAfter? {ts : List Token} :
    Nested ts ↔ ∃ after, depthAfter? 0 ts = some after := by
  simp only [exists_depthAfter?_iff, Nested, Nat.zero_add]

instance instDecidableNested (ts : List Token) : Decidable (Nested ts) :=
  decidable_of_iff ((depthAfter? 0 ts).isSome = true) <| by
    rw [nested_iff_exists_depthAfter?, Option.isSome_iff_exists]

/-- Nested parentheses that agree in number leave no group open. -/
theorem Nested.depthAfter?_eq {ts : List Token} (nested : Nested ts)
    (equal : ts.count .opening = ts.count .closing) : depthAfter? 0 ts = some 0 := by
  obtain ⟨after, balanced⟩ := nested_iff_exists_depthAfter?.1 nested
  have counted := depthAfter?_count balanced
  rw [balanced]
  congr 1
  omega

theorem nested_iff_excessClosings {ts : List Token} : Nested ts ↔ excessClosings ts = 0 := by
  rw [nested_iff_exists_depthAfter?, depthAfter?_eq]
  simp

end Token

namespace Pending

/-- The groups that wait after a run are those that the list leaves open and those from before that it
does not close. -/
theorem groups_run_eq (stack : List Pending) (ts : List Token) :
    groups (run stack ts).2 = excessOpenings ts + (groups stack - excessClosings ts) := by
  induction ts generalizing stack with
  | nil => simp [run, excessOpenings, excessClosings]
  | cons t rest ih =>
    have later : groups (run stack (t :: rest)).2 =
        excessOpenings rest + (groups (step stack t).2 - excessClosings rest) := ih _
    cases t with
    | number value => exact later
    | operator op => rwa [groups_step_operator] at later
    | opening =>
      rw [later, groups_step_opening]
      simp only [excessOpenings, excessClosings]
      split
      · omega
      · omega
    | closing =>
      rw [later, groups_step_closing]
      simp only [excessOpenings, excessClosings]
      omega

/-- A closing parenthesis too many in a front of the list leaves one group more open at its end than
the counts of the whole list tell. -/
theorem groups_run_pos {ts : List Token} (equal : ts.count .opening = ts.count .closing)
    (unnested : ¬ Nested ts) : 0 < groups (run [] ts).2 := by
  simp only [Nested, Classical.not_forall, Nat.not_le] at unnested
  obtain ⟨front, ⟨back, rfl⟩, excess⟩ := unnested
  have later := groups_run_eq (run [] front).2 back
  have counted := count_closing_add_excessOpenings back
  rw [List.count_append, List.count_append] at equal
  rw [run_append]
  dsimp only
  omega

end Pending

/-- **Deferred faults.** Among the lists whose parentheses agree in number, those that are not nested
have no value, whatever else they hold. A nested list leaves no parenthesis in the output, and if its
reduction ends with operands left over, these are as many as its numbers exceed its operators, and
not one. -/
theorem parenthesis_faults {ts : List Token} (equal : ts.count .opening = ts.count .closing) :
    (¬ Nested ts → ∃ fault, reduce (postorder ts) = .error fault) ∧
      (Nested ts → (.opening ∉ postorder ts ∧ .closing ∉ postorder ts) ∧
        ∀ count, reduce (postorder ts) = .error (.leftover count) →
          (count : Int) = (numbers ts).length - (operators ts).length ∧ count ≠ 1) := by
  constructor
  · intro unnested
    have waiting := opening_mem_postorder_iff.2 (Pending.groups_run_pos equal unnested)
    cases reduced : reduce (postorder ts) with
    | error fault => exact ⟨fault, rfl⟩
    | ok value =>
      have ran := reduce_eq_ok_iff.1 reduced
      exact absurd waiting (parenthesis_notMem_of_reduceFrom ran).1
  · intro nested
    have balanced := nested.depthAfter?_eq equal
    have opening : .opening ∉ postorder ts := by
      rw [opening_mem_postorder balanced]
      exact Nat.lt_irrefl 0
    have closing := closing_notMem_postorder ts
    refine ⟨⟨opening, closing⟩, fun count failed => ?_⟩
    obtain ⟨stack, ran, rfl, several⟩ := leftover_of_reduce failed opening closing
    have counted := length_reduceFrom ran
    rw [numbers_postorder, (operators_postorder ts).length_eq, List.length_nil] at counted
    exact ⟨by omega, several⟩

/-- In `2)+(3` the operator has both operands, but the group stays open. In `(2)(3)` nothing stays
open, and one number too many is left. -/
theorem parenthesis_faults_of_crossed_and_nested :
    (¬ Nested [.number (.ofInt 2), .closing, .operator .add, .opening, .number (.ofInt 3)] ∧
        ∃ fault, reduce (postorder [.number (.ofInt 2), .closing, .operator .add, .opening,
          .number (.ofInt 3)]) = .error fault) ∧
      Nested [.opening, .number (.ofInt 2), .closing, .opening, .number (.ofInt 3), .closing] ∧
        reduce (postorder [.opening, .number (.ofInt 2), .closing, .opening, .number (.ofInt 3),
          .closing]) = .error (.leftover 2) ∧
        ((2 : Nat) : Int) = (numbers [.opening, .number (.ofInt 2), .closing, .opening,
          .number (.ofInt 3), .closing]).length - (operators [.opening, .number (.ofInt 2),
          .closing, .opening, .number (.ofInt 3), .closing]).length ∧ 2 ≠ 1 := by
  have crossed : ¬ Nested [.number (.ofInt 2), .closing, .operator .add, .opening,
      .number (.ofInt 3)] := by decide
  have nested : Nested [.opening, .number (.ofInt 2), .closing, .opening, .number (.ofInt 3),
      .closing] := by decide
  have left : reduce (postorder [.opening, .number (.ofInt 2), .closing, .opening,
      .number (.ofInt 3), .closing]) = .error (.leftover 2) := rfl
  have counted := ((parenthesis_faults (by decide)).2 nested).2 2 left
  exact ⟨⟨crossed, (parenthesis_faults (by decide)).1 crossed⟩, nested, left, counted⟩

end Calculator
