import Calculator.Expr
import Calculator.Postorder
import Calculator.Proofs.Postorder.Conservation

/-!
# The stack of operands

A reduction of the postorder of a tree puts the value of the tree on the operands in hand, or ends
at the first fault of the tree. Whatever the list is, a reduction that ends well has met no
parenthesis, and the operands in hand at its end are counted by the numbers and the operators of the
list.
-/

namespace Calculator

open Token

/-- The postorder of a tree puts the value of the tree on top, whatever stands below and follows. -/
theorem reduceFrom_postorder_append (e : Expr) (stack : List Binary64) (rest : List Token) :
    reduceFrom stack (e.postorder ++ rest) =
      e.value.bind fun value => reduceFrom (value :: stack) rest := by
  induction e generalizing stack rest with
  | number value => rfl
  | apply op left right ihLeft ihRight =>
    rw [Expr.postorder, List.append_assoc, List.append_assoc, ihLeft, Expr.value]
    cases left.value with
    | error fault => rfl
    | ok x =>
      show reduceFrom (x :: stack) (right.postorder ++ ([.operator op] ++ rest)) = _
      rw [ihRight]
      cases right.value with
      | error fault => rfl
      | ok y =>
        show reduceFrom (y :: x :: stack) (.operator op :: rest) = (op.apply x y).bind _
        simp only [reduceFrom, reduceStep]
        cases op.apply x y with
        | error fault => rfl
        | ok value => rfl

theorem reduce_postorder (e : Expr) : reduce e.postorder = e.value := by
  have whole := reduceFrom_postorder_append e [] []
  rw [List.append_nil] at whole
  rw [reduce, whole]
  cases e.value with
  | error fault => rfl
  | ok value => rfl

theorem reduce_eq_ok_iff {ts : List Token} {value : Binary64} :
    reduce ts = .ok value ↔ reduceFrom [] ts = .ok [value] := by
  unfold reduce
  split
  · simp_all
  · rename_i stack notOne ran
    constructor
    · intro absurd
      cases absurd
    · intro one
      exact absurd (Except.ok.inj (ran.symm.trans one)) (notOne value)
  · simp_all

/-- What one token does when it is taken without a fault. -/
theorem reduceStep_eq_ok {stack stack' : List Binary64} {t : Token}
    (taken : reduceStep stack t = .ok stack') :
    (∃ value, t = .number value ∧ stack' = value :: stack) ∨
      ∃ op left right rest value, t = .operator op ∧ stack = right :: left :: rest ∧
        op.apply left right = .ok value ∧ stack' = value :: rest := by
  cases t with
  | number value =>
    cases taken
    exact .inl ⟨value, rfl, rfl⟩
  | operator op =>
    match stack, taken with
    | right :: left :: rest, taken =>
      simp only [reduceStep] at taken
      cases applied : op.apply left right with
      | error fault =>
        rw [applied] at taken
        cases taken
      | ok value =>
        rw [applied] at taken
        cases taken
        exact .inr ⟨op, left, right, rest, value, rfl, rfl, applied, rfl⟩
  | opening => cases taken
  | closing => cases taken

/-- Every number adds an operand and every operator takes one away. -/
theorem length_reduceFrom {stack stack' : List Binary64} {ts : List Token}
    (ran : reduceFrom stack ts = .ok stack') :
    stack'.length + (operators ts).length = stack.length + (numbers ts).length := by
  induction ts generalizing stack with
  | nil =>
    cases ran
    rfl
  | cons t rest ih =>
    simp only [reduceFrom] at ran
    cases taken : reduceStep stack t with
    | error fault => simp [taken] at ran
    | ok next =>
      rw [taken] at ran
      have later := ih ran
      rcases reduceStep_eq_ok taken with ⟨value, rfl, rfl⟩ | ⟨op, x, y, below, value, rfl, rfl, -, rfl⟩
      · simp only [operators_number, numbers_number, List.length_cons] at later ⊢
        omega
      · simp only [operators_operator, numbers_operator, List.length_cons] at later ⊢
        omega

/-- A reduction fails at every parenthesis. -/
theorem parenthesis_notMem_of_reduceFrom {stack stack' : List Binary64} {ts : List Token}
    (ran : reduceFrom stack ts = .ok stack') : .opening ∉ ts ∧ .closing ∉ ts := by
  induction ts generalizing stack with
  | nil => simp
  | cons t rest ih =>
    simp only [reduceFrom] at ran
    cases taken : reduceStep stack t with
    | error fault => simp [taken] at ran
    | ok next =>
      rw [taken] at ran
      have later := ih ran
      rcases reduceStep_eq_ok taken with ⟨value, rfl, -⟩ | ⟨op, x, y, below, value, rfl, -, -, -⟩
      · simpa using later
      · simpa using later

/-- Only a parenthesis is refused with the operands in hand. -/
theorem parenthesis_of_reduceStep {stack : List Binary64} {t : Token} {count : Nat}
    (refused : reduceStep stack t = .error (.leftover count)) : t = .opening ∨ t = .closing := by
  cases t with
  | number value => cases refused
  | operator op =>
    match stack, refused with
    | right :: left :: rest, refused =>
      simp only [reduceStep] at refused
      cases applied : op.apply left right with
      | ok value =>
        rw [applied] at refused
        cases refused
      | error fault =>
        obtain ⟨-, -, rfl⟩ := Operator.apply_eq_error_iff.1 applied
        rw [applied] at refused
        cases refused
  | opening => exact .inl rfl
  | closing => exact .inr rfl

theorem parenthesis_mem_of_reduceFrom {stack : List Binary64} {ts : List Token} {count : Nat}
    (refused : reduceFrom stack ts = .error (.leftover count)) : .opening ∈ ts ∨ .closing ∈ ts := by
  induction ts generalizing stack with
  | nil => cases refused
  | cons t rest ih =>
    simp only [reduceFrom] at refused
    cases taken : reduceStep stack t with
    | ok next =>
      rw [taken] at refused
      exact (ih refused).imp (List.mem_cons_of_mem t) (List.mem_cons_of_mem t)
    | error fault =>
      rw [taken] at refused
      cases refused
      rcases parenthesis_of_reduceStep taken with rfl | rfl
      · exact .inl List.mem_cons_self
      · exact .inr List.mem_cons_self

/-- Without parentheses operands are left over only at the end. -/
theorem leftover_of_reduce {ts : List Token} {count : Nat}
    (failed : reduce ts = .error (.leftover count)) (opening : .opening ∉ ts)
    (closing : .closing ∉ ts) :
    ∃ stack, reduceFrom [] ts = .ok stack ∧ stack.length = count ∧ count ≠ 1 := by
  unfold reduce at failed
  split at failed
  · cases failed
  · rename_i stack several ran
    cases failed
    refine ⟨stack, ran, rfl, fun one => ?_⟩
    obtain ⟨value, rfl⟩ := List.length_eq_one_iff.1 one
    exact several value rfl
  · rename_i fault ran
    cases failed
    exact absurd (parenthesis_mem_of_reduceFrom ran) (not_or.2 ⟨opening, closing⟩)

end Calculator
