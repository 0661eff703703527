import Calculator.Proofs.Postorder.Pairing

/-!
# Every token accounted for

The conversion passes on all numbers in their order, all operators, and the opening parentheses that
have no closing one. Pairs of parentheses and closing parentheses without an opening one leave no trace,
and nothing else is lost, whatever the list is. The opening parentheses that are passed on are those of
the groups that still wait at the end of a run, and the counts from the end of the list tell how many
these are.
-/

namespace Calculator

open Token

namespace Pending

/-- Of the entries of a stack only groups are put out as openings. -/
theorem count_opening_tokens (stack : List Pending) : (tokens stack).count .opening = groups stack := by
  induction stack with
  | nil => rfl
  | cons entry rest ih =>
    cases entry with
    | operator op => simpa [token, groups] using ih
    | group => simpa [token, groups] using ih

end Pending

/-- The openings in the output are those that the list leaves open. -/
theorem count_opening_postorder (ts : List Token) :
    (postorder ts).count .opening = excessOpenings ts := by
  have ran : (Pending.run [] ts).1.count .opening = 0 :=
    List.count_eq_zero.2 (Pending.opening_notMem_run [] ts)
  have waiting := Pending.groups_run_eq [] ts
  rw [postorder, List.count_append, ran, Pending.count_opening_tokens, waiting]
  simp [Pending.groups]

/-- A token is a number, an operator or a parenthesis. -/
theorem Token.length_eq_counts (ts : List Token) :
    ts.length =
      (numbers ts).length + (operators ts).length + ts.count .opening + ts.count .closing := by
  induction ts with
  | nil => rfl
  | cons t rest ih =>
    cases t with
    | number value => simp [ih]; omega
    | operator op => simp [ih]; omega
    | opening => simp [ih]; omega
    | closing => simp [ih]; omega

/-- **Conservation.** The output has the numbers of the list in their order, its operators in some order,
no closing parenthesis, and as many opening ones as have no partner in the list. Its length is that of
the list but for two parentheses of each pair and the closing ones without a partner. -/
theorem postorder_conserves (ts : List Token) :
    numbers (postorder ts) = numbers ts ∧
      (operators (postorder ts)).Perm (operators ts) ∧
      .closing ∉ postorder ts ∧
      (postorder ts).count .opening = (unpairedOpenings ts).card ∧
      (postorder ts).length + 2 * (pairs ts).card + (unpairedClosings ts).card = ts.length := by
  have numbersKept := numbers_postorder ts
  have operatorsKept := operators_postorder ts
  have noClosing := closing_notMem_postorder ts
  have openings : (postorder ts).count .opening = (unpairedOpenings ts).card := by
    rw [count_opening_postorder, card_unpairedOpenings]
  refine ⟨numbersKept, operatorsKept, noClosing, openings, ?_⟩
  have before := length_eq_counts ts
  have after := length_eq_counts (postorder ts)
  rw [numbersKept, operatorsKept.length_eq, openings, List.count_eq_zero.2 noClosing] at after
  have opened := card_pairs_add_unpairedOpenings ts
  have closed := card_pairs_add_unpairedClosings ts
  omega

/-- In `)1+(2` the closing parenthesis is dropped, and the opening one is put out before the operator
below it. -/
example : postorder [.closing, .number (.ofInt 1), .operator .add, .opening, .number (.ofInt 2)] =
    [.number (.ofInt 1), .number (.ofInt 2), .opening, .operator .add] := rfl

end Calculator
