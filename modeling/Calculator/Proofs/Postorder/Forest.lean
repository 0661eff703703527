import Calculator.Proofs.Evaluation.Division
import Calculator.Proofs.Postorder.Operands

/-!
# Reading postorder back

A list of tokens is read as trees in the way in which it is reduced: a number is a leaf, and an operator
joins the two trees on top. The trees in hand always list the tokens that were taken, and where a
reduction goes on without a fault their values are its operands. A list therefore has a value exactly if
it is the postorder of a tree with this value, and it is the postorder of one tree only.
-/

namespace Calculator.Expr

/-- Takes one token onto a stack of trees, its top first. -/
def growStep (forest : List Expr) : Token → Option (List Expr)
  | .number value => some (.number value :: forest)
  | .operator op =>
    match forest with
    | right :: left :: rest => some (.apply op left right :: rest)
    | _ => none
  | .opening | .closing => none

/-- Takes a list of tokens from the left. -/
def grow (forest : List Expr) : List Token → Option (List Expr)
  | [] => some forest
  | t :: rest => (growStep forest t).bind (grow · rest)

/-- The tokens of a stack of trees, those of its top last. -/
def listing : List Expr → List Token
  | [] => []
  | top :: rest => listing rest ++ top.postorder

variable {forest forest' : List Expr} {stack stack' : List Binary64} {t : Token} {ts : List Token}

/-- The postorder of a tree is read as the tree, whatever stands below and follows. -/
theorem grow_postorder_append (e : Expr) (forest : List Expr) (rest : List Token) :
    grow forest (e.postorder ++ rest) = grow (e :: forest) rest := by
  induction e generalizing forest rest with
  | number value => rfl
  | apply op left right ihLeft ihRight =>
    rw [postorder, List.append_assoc, List.append_assoc, ihLeft, ihRight]
    rfl

theorem grow_listing_append (forest : List Expr) (rest : List Token) :
    grow [] (listing forest ++ rest) = grow forest rest := by
  induction forest generalizing rest with
  | nil => rfl
  | cons top below ih => rw [listing, List.append_assoc, ih, grow_postorder_append]

/-- A token joins the listing of the trees at its end. -/
theorem listing_growStep (taken : growStep forest t = some forest') :
    listing forest' = listing forest ++ [t] := by
  cases t with
  | number value =>
    cases taken
    rfl
  | operator op =>
    match forest, taken with
    | right :: left :: rest, taken =>
      cases taken
      simp only [listing, postorder, List.append_assoc]
  | opening => cases taken
  | closing => cases taken

theorem listing_grow (ran : grow forest ts = some forest') :
    listing forest' = listing forest ++ ts := by
  induction ts generalizing forest with
  | nil =>
    cases ran
    rw [List.append_nil]
  | cons t rest ih =>
    obtain ⟨next, taken, later⟩ := Option.bind_eq_some_iff.1 ran
    rw [ih later, listing_growStep taken, List.append_assoc, List.singleton_append]

/-- Reading is the inverse of listing. -/
theorem grow_eq_some_iff : grow [] ts = some forest ↔ listing forest = ts := by
  constructor
  · exact listing_grow
  · rintro rfl
    have read := grow_listing_append forest []
    rwa [List.append_nil] at read

/-- A tree is determined by its postorder. -/
theorem postorder_injective : Function.Injective postorder := by
  intro e e' same
  have read : grow [] e.postorder = some [e] := grow_eq_some_iff.2 rfl
  have read' : grow [] e'.postorder = some [e'] := grow_eq_some_iff.2 rfl
  rw [same, read'] at read
  exact (List.cons.inj (Option.some.inj read)).1.symm

/-- The tree has the value. -/
def Yields (e : Expr) (value : Binary64) : Prop := e.value = .ok value

/-- Where a step of a reduction has no fault, the trees whose values are the operands grow to trees whose
values are the operands afterwards. -/
theorem exists_growStep (operands : List.Forall₂ Yields forest stack)
    (taken : reduceStep stack t = .ok stack') :
    ∃ forest', growStep forest t = some forest' ∧ List.Forall₂ Yields forest' stack' := by
  rcases reduceStep_eq_ok taken with
    ⟨value, rfl, rfl⟩ | ⟨op, y, x, rest, value, rfl, rfl, applied, rfl⟩
  · exact ⟨_, rfl, .cons rfl operands⟩
  · cases operands with
    | @cons right _ _ _ hright operands =>
      cases operands with
      | @cons left _ _ _ hleft below =>
        have joined : Yields (.apply op left right) value := by
          rw [Yields, Expr.value, hleft, hright]
          exact applied
        exact ⟨_, rfl, .cons joined below⟩

theorem exists_grow (operands : List.Forall₂ Yields forest stack)
    (ran : reduceFrom stack ts = .ok stack') :
    ∃ forest', grow forest ts = some forest' ∧ List.Forall₂ Yields forest' stack' := by
  induction ts generalizing forest stack with
  | nil =>
    cases ran
    exact ⟨forest, rfl, operands⟩
  | cons t rest ih =>
    simp only [reduceFrom] at ran
    cases taken : reduceStep stack t with
    | error fault => simp [taken] at ran
    | ok next =>
      rw [taken] at ran
      obtain ⟨grown, step, operands'⟩ := exists_growStep operands taken
      obtain ⟨forest', later, values⟩ := ih operands' ran
      exact ⟨forest', Option.bind_eq_some_iff.2 ⟨grown, step, later⟩, values⟩

/-- A list with a value is the postorder of a tree with this value. -/
theorem exists_postorder_of_reduce {value : Binary64} (reduced : reduce ts = .ok value) :
    ∃ e : Expr, e.postorder = ts ∧ e.value = .ok value := by
  obtain ⟨forest, read, values⟩ := exists_grow .nil (reduce_eq_ok_iff.1 reduced)
  cases values with
  | @cons e _ _ _ yields others =>
    cases others
    exact ⟨e, grow_eq_some_iff.1 read, yields⟩

/-- **Reduction.** A list of tokens has a value exactly if it is the postorder of a tree that divides
nowhere by zero and has this value, and there is no other tree with this postorder. -/
theorem reduce_eq_ok_iff_postorder (ts : List Token) (value : Binary64) :
    (reduce ts = .ok value ↔
      ∃! e : Expr, e.postorder = ts ∧ ¬ e.DividesByZero ∧ e.value = .ok value) ∧
    Function.Injective postorder := by
  refine ⟨⟨fun reduced => ?_, ?_⟩, postorder_injective⟩
  · obtain ⟨e, listed, valued⟩ := exists_postorder_of_reduce reduced
    refine ⟨e, ⟨listed, fun divides => ?_, valued⟩, fun e' ⟨listed', _⟩ => ?_⟩
    · cases valued.symm.trans divides.value_eq
    · exact postorder_injective (listed'.trans listed.symm)
  · rintro ⟨e, ⟨rfl, -, valued⟩, -⟩
    rw [reduce_postorder, valued]

end Calculator.Expr
