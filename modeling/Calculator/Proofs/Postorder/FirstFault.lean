import Mathlib.Data.List.Induction
import Calculator.Proofs.Postorder.Forest

/-!
# The first fault of a list

Whether a token can be taken is told by the tokens before it. Every number adds an operand and every
operator takes one away, and the right operand of an operator is the value of the tree whose postorder
stands directly before it. As long as no token is faulty by these counts, the operands in hand are as
many as the counts say; the first token that is faulty stops the reduction with a fault of its own,
whatever follows it.
-/

namespace Calculator

open Token

/-- The operands that the numbers and operators of a list leave in hand; it is negative if there are too
many operators. -/
def Token.height (ts : List Token) : Int := (numbers ts).length - (operators ts).length

namespace Expr

/-- The list ends with the postorder of the tree, its last complete operand. -/
def IsLastOperand (e : Expr) (ts : List Token) : Prop := e.postorder <:+ ts

/-- No list ends with the postorders of two trees. -/
theorem IsLastOperand.unique {e e' : Expr} {ts : List Token} (last : e.IsLastOperand ts)
    (last' : e'.IsLastOperand ts) : e = e' := by
  induction e generalizing e' ts with
  | number value =>
    obtain ⟨front, rfl⟩ := last
    obtain ⟨front', same⟩ := last'
    cases e' with
    | number value' =>
      have ends := (List.append_inj' same rfl).2
      cases ends
      rfl
    | apply op left right =>
      simp only [postorder, ← List.append_assoc] at same
      cases (List.append_inj' same rfl).2
  | apply op left right ihLeft ihRight =>
    obtain ⟨front, rfl⟩ := last
    obtain ⟨front', same⟩ := last'
    cases e' with
    | number value' =>
      simp only [postorder, ← List.append_assoc] at same
      cases (List.append_inj' same rfl).2
    | apply op' left' right' =>
      simp only [postorder, ← List.append_assoc] at same
      obtain ⟨operands, ends⟩ := List.append_inj' same rfl
      have sameRight : right = right' :=
        ihRight (List.suffix_append _ _) ⟨_, operands⟩
      subst sameRight
      have sameLeft : left = left' :=
        ihLeft (List.suffix_append _ _) ⟨_, List.append_cancel_right operands⟩
      cases ends
      rw [sameLeft]

end Expr

/-- By the tokens before it, the token cannot be taken. -/
inductive Faulty (front : List Token) : Token → Prop where
  | opening : Faulty front .opening
  | closing : Faulty front .closing
  | missingOperand {op : Operator} : height front < 2 → Faulty front (.operator op)
  | zeroDivisor {divisor : Expr} {y : Binary64} : 2 ≤ height front →
      divisor.IsLastOperand front → divisor.value = .ok y → y.isZero = true →
        Faulty front (.operator .div)

/-- No token of the list is faulty. -/
def Faultless (ts : List Token) : Prop :=
  ∀ front t, front ++ [t] <+: ts → ¬ Faulty front t

/-- The token after `front` is the first faulty one of the list. -/
structure FirstFault (ts front : List Token) (t : Token) : Prop where
  within : front ++ [t] <+: ts
  faulty : Faulty front t
  faultless : Faultless front

theorem not_faulty_number (front : List Token) (value : Binary64) :
    ¬ Faulty front (.number value) := nofun

theorem faultless_nil : Faultless [] := by
  intro front t within
  have empty := List.prefix_nil.1 within
  simp at empty

theorem faultless_concat {ts : List Token} {t : Token} :
    Faultless (ts ++ [t]) ↔ Faultless ts ∧ ¬ Faulty ts t := by
  constructor
  · intro faultless
    exact ⟨fun front u within => faultless front u (List.prefix_append_of_prefix within),
      faultless ts t (List.prefix_refl _)⟩
  · rintro ⟨faultless, sound⟩ front u within
    rcases List.prefix_concat_iff.1 within with whole | within
    · obtain ⟨rfl, ends⟩ := List.append_inj' whole rfl
      cases ends
      exact sound
    · exact faultless front u within

/-- A list with a faulty token has a first one. -/
theorem exists_firstFault {ts : List Token} (faults : ¬ Faultless ts) :
    ∃ front t, FirstFault ts front t := by
  induction ts using List.reverseRecOn with
  | nil => exact absurd faultless_nil faults
  | append_singleton ts t ih =>
    by_cases earlier : Faultless ts
    · rw [faultless_concat, not_and, Classical.not_not] at faults
      exact ⟨ts, t, List.prefix_refl _, faults earlier, earlier⟩
    · obtain ⟨front, u, first⟩ := ih earlier
      exact ⟨front, u, first.within.trans (List.prefix_append _ _), first.faulty, first.faultless⟩

section

variable {front : List Token} {stack : List Binary64} (ran : reduceFrom [] front = .ok stack)
include ran

/-- The operands in hand are as many as the counts say. -/
theorem length_eq_height : (stack.length : Int) = height front := by
  have counted := length_reduceFrom ran
  simp only [List.length_nil] at counted
  unfold height
  omega

/-- The operand on top is the value of the last complete operand. -/
theorem exists_isLastOperand {y : Binary64} {rest : List Binary64} (top : stack = y :: rest) :
    ∃ e : Expr, e.IsLastOperand front ∧ e.value = .ok y := by
  subst top
  obtain ⟨forest, read, values⟩ := Expr.exists_grow .nil ran
  cases values with
  | @cons e _ below _ yields _ =>
    exact ⟨e, ⟨Expr.listing below, Expr.grow_eq_some_iff.1 read⟩, yields⟩

theorem reduceStep_parenthesis {t : Token} (parenthesis : t = .opening ∨ t = .closing) :
    ∃ count : Nat, count = height front ∧ reduceStep stack t = .error (.leftover count) := by
  refine ⟨stack.length, length_eq_height ran, ?_⟩
  rcases parenthesis with rfl | rfl
  · rfl
  · rfl

theorem reduceStep_missingOperand {op : Operator} (low : height front < 2) :
    reduceStep stack (.operator op) = .error (.missingOperand op) := by
  have counted := length_eq_height ran
  match stack with
  | [] => rfl
  | [y] => rfl
  | y :: x :: rest =>
    simp only [List.length_cons] at counted
    omega

/-- With two operands in hand only a division is faulty, and only by its divisor. -/
theorem reduceStep_zeroDivisor {op : Operator} (faulty : Faulty front (.operator op))
    (high : 2 ≤ height front) :
    op = .div ∧ reduceStep stack (.operator op) = .error .divisionByZero := by
  have counted := length_eq_height ran
  cases faulty with
  | missingOperand low => omega
  | @zeroDivisor divisor y _ last value zero =>
    match stack with
    | [] => simp only [List.length_nil] at counted; omega
    | [y] => simp only [List.length_cons, List.length_nil] at counted; omega
    | y' :: x :: rest =>
      obtain ⟨e, last', value'⟩ := exists_isLastOperand ran rfl
      have same : y' = y := by
        rw [last'.unique last, value] at value'
        exact (Except.ok.inj value').symm
      subst same
      have divided : Operator.div.apply x y' = .error .divisionByZero :=
        Operator.apply_eq_error_iff.2 ⟨rfl, zero, rfl⟩
      refine ⟨rfl, ?_⟩
      simp only [reduceStep, divided]
      rfl

/-- A token that is not faulty is taken. -/
theorem exists_reduceStep {t : Token} (sound : ¬ Faulty front t) :
    ∃ stack', reduceStep stack t = .ok stack' := by
  have counted := length_eq_height ran
  cases t with
  | number value => exact ⟨_, rfl⟩
  | opening => exact absurd .opening sound
  | closing => exact absurd .closing sound
  | operator op =>
    have high : 2 ≤ height front := by
      by_contra low
      exact sound (.missingOperand (by omega))
    match stack with
    | [] => simp only [List.length_nil] at counted; omega
    | [y] => simp only [List.length_cons, List.length_nil] at counted; omega
    | y :: x :: rest =>
      simp only [reduceStep]
      cases applied : op.apply x y with
      | ok value => exact ⟨_, rfl⟩
      | error fault =>
        obtain ⟨rfl, zero, -⟩ := Operator.apply_eq_error_iff.1 applied
        obtain ⟨e, last, value⟩ := exists_isLastOperand ran rfl
        exact absurd (.zeroDivisor high last value zero) sound

theorem reduce_of_refused {ts : List Token} {t : Token} {fault : Fault}
    (within : front ++ [t] <+: ts) (refused : reduceStep stack t = .error fault) :
    reduce ts = .error fault := by
  obtain ⟨back, rfl⟩ := within
  have stopped : reduceFrom [] (front ++ [t] ++ back) = .error fault := by
    rw [List.append_assoc, reduceFrom_append, ran]
    simp only [Except.bind, List.singleton_append, reduceFrom, refused]
  rw [reduce, stopped]

end

/-- A list without a faulty token is taken to its end. -/
theorem Faultless.exists_reduceFrom {ts : List Token} (faultless : Faultless ts) :
    ∃ stack, reduceFrom [] ts = .ok stack := by
  induction ts using List.reverseRecOn with
  | nil => exact ⟨[], rfl⟩
  | append_singleton ts t ih =>
    obtain ⟨earlier, sound⟩ := faultless_concat.1 faultless
    obtain ⟨stack, ran⟩ := ih earlier
    obtain ⟨stack', taken⟩ := exists_reduceStep ran sound
    refine ⟨stack', ?_⟩
    rw [reduceFrom_append, ran]
    simp only [Except.bind, reduceFrom, taken]

/-- What is left at the end of a list that is taken whole is one value or a fault. -/
theorem reduce_of_reduceFrom {ts : List Token} {stack : List Binary64}
    (ran : reduceFrom [] ts = .ok stack) :
    (∃ value, stack = [value] ∧ reduce ts = .ok value) ∨
      (stack.length ≠ 1 ∧ reduce ts = .error (.leftover stack.length)) := by
  rw [reduce, ran]
  rcases stack with _ | ⟨value, _ | ⟨x, rest⟩⟩
  · exact .inr ⟨by simp, rfl⟩
  · exact .inl ⟨value, rfl, rfl⟩
  · exact .inr ⟨by simp, rfl⟩

/-- **Faults by counts.** The first faulty token of a list decides its reduction: a parenthesis leaves
over the operands in hand, an operator with fewer than two of them misses one, and otherwise it is a
division by zero. A list without a faulty token has a value if its counts leave one operand, and else
these are left over. -/
theorem reduce_by_counts (ts : List Token) :
    (∀ front t, FirstFault ts front t →
      (t = .opening ∨ t = .closing →
        ∃ count : Nat, count = height front ∧ reduce ts = .error (.leftover count)) ∧
      ∀ op, t = .operator op →
        (height front < 2 → reduce ts = .error (.missingOperand op)) ∧
        (2 ≤ height front → op = .div ∧ reduce ts = .error .divisionByZero)) ∧
    ((∀ front t, ¬ FirstFault ts front t) →
      ((∃ value, reduce ts = .ok value) ↔ height ts = 1) ∧
      (height ts ≠ 1 →
        ∃ count : Nat, count = height ts ∧ reduce ts = .error (.leftover count))) := by
  constructor
  · rintro front t ⟨within, faulty, faultless⟩
    obtain ⟨stack, ran⟩ := faultless.exists_reduceFrom
    refine ⟨fun parenthesis => ?_, ?_⟩
    · obtain ⟨count, counted, refused⟩ := reduceStep_parenthesis ran parenthesis
      exact ⟨count, counted, reduce_of_refused ran within refused⟩
    · rintro op rfl
      refine ⟨fun low => reduce_of_refused ran within (reduceStep_missingOperand ran low), ?_⟩
      intro high
      obtain ⟨isDiv, refused⟩ := reduceStep_zeroDivisor ran faulty high
      exact ⟨isDiv, reduce_of_refused ran within refused⟩
  · intro sound
    have faultless : Faultless ts := by
      by_contra faults
      obtain ⟨front, t, first⟩ := exists_firstFault faults
      exact sound front t first
    obtain ⟨stack, ran⟩ := faultless.exists_reduceFrom
    have counted := length_eq_height ran
    rcases reduce_of_reduceFrom ran with ⟨value, rfl, reduced⟩ | ⟨several, failed⟩
    · have one : height ts = 1 := counted.symm
      exact ⟨iff_of_true ⟨value, reduced⟩ one, fun other => absurd one other⟩
    · refine ⟨iff_of_false ?_ (by omega), fun _ => ⟨stack.length, counted, failed⟩⟩
      rintro ⟨value, reduced⟩
      cases reduced.symm.trans failed

/-- In `6 1 1 - / ) +` the divisor is `1 1 -`, and what follows the division is not looked at. In `2 +`
and `2 )` one operand is in hand at the fault, and `2 3` has no faulty token. -/
theorem reduce_by_counts_of_zero_difference :
    (FirstFault [.number (.ofInt 6), .number (.ofInt 1), .number (.ofInt 1), .operator .sub,
          .operator .div, .closing, .operator .add]
        [.number (.ofInt 6), .number (.ofInt 1), .number (.ofInt 1), .operator .sub]
        (.operator .div) ∧
      reduce [.number (.ofInt 6), .number (.ofInt 1), .number (.ofInt 1), .operator .sub,
        .operator .div, .closing, .operator .add] = .error .divisionByZero) ∧
    (FirstFault [.number (.ofInt 2), .operator .add] [.number (.ofInt 2)] (.operator .add) ∧
      reduce [.number (.ofInt 2), .operator .add] = .error (.missingOperand .add)) ∧
    (FirstFault [.number (.ofInt 2), .closing] [.number (.ofInt 2)] .closing ∧
      ∃ count : Nat, count = height [.number (.ofInt 2)] ∧
        reduce [.number (.ofInt 2), .closing] = .error (.leftover count)) ∧
    (∀ front t, ¬ FirstFault [.number (.ofInt 2), .number (.ofInt 3)] front t) ∧
      ∃ count : Nat, count = height [.number (.ofInt 2), .number (.ofInt 3)] ∧
        reduce [.number (.ofInt 2), .number (.ofInt 3)] = .error (.leftover count) := by
  have number : ∀ {front : List Token} {n : Int}, Faultless front →
      Faultless (front ++ [.number (.ofInt n)]) :=
    fun faultless => faultless_concat.2 ⟨faultless, not_faulty_number _ _⟩
  have one : Faultless [.number (.ofInt 2)] := number faultless_nil
  have three : Faultless [.number (.ofInt 6), .number (.ofInt 1), .number (.ofInt 1)] :=
    number (number (number faultless_nil))
  have difference : Faultless [.number (.ofInt 6), .number (.ofInt 1), .number (.ofInt 1),
      .operator .sub] := by
    refine faultless_concat.2 ⟨three, ?_⟩
    rintro (_ | _ | low)
    exact absurd low (by decide)
  have zero : ((Binary64.ofInt 1).sub (.ofInt 1)).isZero = true := by decide +kernel
  have last : (Expr.apply .sub (.number (.ofInt 1)) (.number (.ofInt 1))).IsLastOperand
      [.number (.ofInt 6), .number (.ofInt 1), .number (.ofInt 1), .operator .sub] :=
    ⟨[.number (.ofInt 6)], rfl⟩
  have division : FirstFault [.number (.ofInt 6), .number (.ofInt 1), .number (.ofInt 1),
      .operator .sub, .operator .div, .closing, .operator .add]
      [.number (.ofInt 6), .number (.ofInt 1), .number (.ofInt 1), .operator .sub]
      (.operator .div) :=
    ⟨⟨[.closing, .operator .add], rfl⟩, .zeroDivisor (by decide) last rfl zero, difference⟩
  have addition : FirstFault [.number (.ofInt 2), .operator .add] [.number (.ofInt 2)]
      (.operator .add) := ⟨List.prefix_refl _, .missingOperand (by decide), one⟩
  have parenthesis : FirstFault [.number (.ofInt 2), .closing] [.number (.ofInt 2)] .closing :=
    ⟨List.prefix_refl _, .closing, one⟩
  have sound : ∀ front t, ¬ FirstFault [.number (.ofInt 2), .number (.ofInt 3)] front t :=
    fun front t found => number one front t found.within found.faulty
  have divided := ((reduce_by_counts _).1 _ _ division).2 .div rfl
  have added := ((reduce_by_counts _).1 _ _ addition).2 .add rfl
  exact ⟨⟨division, (divided.2 (by decide)).2⟩, ⟨addition, added.1 (by decide)⟩,
    ⟨parenthesis, ((reduce_by_counts _).1 _ _ parenthesis).1 (.inr rfl)⟩,
    sound, ((reduce_by_counts _).2 sound).2 (by decide)⟩

end Calculator
