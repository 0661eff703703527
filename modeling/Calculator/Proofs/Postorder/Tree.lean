import Calculator.Postorder
import Calculator.Proofs.Operator.Precedence

/-!
# The postorder of a derived list

A derived list of tokens leaves the conversion in the postorder of its tree. The proof follows the
derivation on an arbitrary stack. At its end the operators that the list has left waiting are at
least as tight as its level, and the output so far with these behind it is the postorder of the
tree. The stack below is untouched, because no operator of the level finds one there that it has to
release.
-/

namespace Calculator

namespace Pending

/-- No operator of the level releases the top of the stack. -/
def Clear (l : Level) (stack : List Pending) : Prop :=
  ∀ op : Operator, l.binding ≤ op.precedence → ∀ top ∈ stack.head?, top.precedes op = false

theorem clear_nil (l : Level) : Clear l [] := by
  intro op _ top mem
  cases mem

theorem clear_group (l : Level) (stack : List Pending) : Clear l (group :: stack) := by
  intro op _ top mem
  cases mem
  rfl

theorem Clear.tighten {l l' : Level} {stack : List Pending} (clear : Clear l stack)
    (le : l.binding ≤ l'.binding) : Clear l' stack :=
  fun op tight top mem => clear op (Nat.le_trans le tight) top mem

/-- An operator of the level leaves a clear stack as it is. -/
theorem Clear.split {l : Level} {stack : List Pending} (clear : Clear l stack) {op : Operator}
    (tight : l.binding ≤ op.precedence) :
    stack.takeWhile (precedes op) = [] ∧ stack.dropWhile (precedes op) = stack := by
  cases stack with
  | nil => exact ⟨rfl, rfl⟩
  | cons top rest =>
    have kept : top.precedes op = false := clear op tight top rfl
    simp [kept]

/-- An operator that all of `held` are applied before releases exactly these from a stack that is
clear below them. -/
theorem step_operator_held {l : Level} {stack : List Pending} (clear : Clear l stack)
    {op : Operator} (tight : l.binding ≤ op.precedence) {held : List Operator}
    (yields : ∀ earlier ∈ held, op.yieldsTo earlier = true) :
    step (held.map operator ++ stack) (.operator op) =
      (held.map Token.operator, operator op :: stack) := by
  have released : ∀ entry ∈ held.map operator, precedes op entry = true := by
    intro entry mem
    obtain ⟨earlier, hearlier, rfl⟩ := List.mem_map.1 mem
    exact yields earlier hearlier
  obtain ⟨empty, rest⟩ := clear.split tight
  simp only [step, List.takeWhile_append_of_pos released, List.dropWhile_append_of_pos released,
    empty, rest, List.append_nil, List.map_map]
  rfl

/-- A closing parenthesis releases the operators of its group and removes the group. -/
theorem step_closing_held (held : List Operator) (stack : List Pending) :
    step (held.map operator ++ group :: stack) .closing = (held.map Token.operator, stack) := by
  have released : ∀ entry ∈ held.map operator, isOperator entry = true := by
    intro entry mem
    obtain ⟨earlier, -, rfl⟩ := List.mem_map.1 mem
    rfl
  simp only [step, List.takeWhile_append_of_pos released, List.dropWhile_append_of_pos released]
  simp [isOperator, token, Function.comp_def]

/-- A run over `ts` on a clear stack emits the tree `e`, but for operators of the level that wait
above the stack. -/
def Emits (l : Level) (e : Expr) (ts : List Token) : Prop :=
  ∀ stack, Clear l stack → ∃ out, ∃ held : List Operator,
    run stack ts = (out, held.map operator ++ stack) ∧
      (∀ op ∈ held, l.binding ≤ op.precedence) ∧
      out ++ held.map Token.operator = e.postorder

theorem emits_number (value : Binary64) : Emits .atom (.number value) [.number value] :=
  fun stack _ => ⟨[.number value], [], rfl, by simp, rfl⟩

/-- What holds of a level holds of the looser ones. -/
theorem Emits.loosen {l l' : Level} {e : Expr} {ts : List Token} (emits : Emits l' e ts)
    (le : l.binding ≤ l'.binding) : Emits l e ts := by
  intro stack clear
  obtain ⟨out, held, ran, tight, emitted⟩ := emits stack (clear.tighten le)
  exact ⟨out, held, ran, fun op mem => Nat.le_trans le (tight op mem), emitted⟩

/-- A group emits its tree completely, whatever stands below. -/
theorem Emits.group {e : Expr} {ts : List Token} (emits : Emits .sum e ts) :
    Emits .atom e (.opening :: ts ++ [.closing]) := by
  intro stack _
  obtain ⟨out, held, ran, -, emitted⟩ := emits (.group :: stack) (clear_group _ _)
  refine ⟨out ++ held.map Token.operator, [], ?_, by simp, by simpa using emitted⟩
  have opened : run stack (.opening :: ts ++ [.closing]) =
      run (.group :: stack) (ts ++ [.closing]) := by
    simp [run, step]
  rw [opened, run_append, ran]
  simp only [run, step_closing_held, List.append_nil, List.map_nil, List.nil_append]

/-- Two operands with an operator between them. The operator is applied after all that the left
operand has left waiting, and before none of the right operand's operators. -/
theorem Emits.apply {l left right : Level} {x y : Expr} {ts us : List Token} {op : Operator}
    (emitsLeft : Emits left x ts) (emitsRight : Emits right y us)
    (leftTight : l.binding ≤ left.binding) (rightTight : l.binding ≤ right.binding)
    (tight : l.binding ≤ op.precedence)
    (yields : ∀ earlier : Operator, left.binding ≤ earlier.precedence → op.yieldsTo earlier = true)
    (waits : ∀ later : Operator, right.binding ≤ later.precedence → later.yieldsTo op = false) :
    Emits l (.apply op x y) (ts ++ .operator op :: us) := by
  intro stack clear
  obtain ⟨out, held, ran, heldTight, emitted⟩ := emitsLeft stack (clear.tighten leftTight)
  have clearRight : Clear right (operator op :: stack) := by
    intro later tightLater top mem
    cases mem
    exact waits later tightLater
  obtain ⟨out', held', ran', heldTight', emitted'⟩ := emitsRight _ clearRight
  have heldYields : ∀ earlier ∈ held, op.yieldsTo earlier = true :=
    fun earlier mem => yields earlier (heldTight earlier mem)
  have stepped := step_operator_held clear tight heldYields
  refine ⟨out ++ (held.map Token.operator ++ out'), held' ++ [op], ?_, ?_, ?_⟩
  · rw [run_append, ran]
    simp only [run, stepped, ran', List.map_append, List.map_cons, List.map_nil,
      List.append_assoc, List.cons_append, List.nil_append]
  · intro waiting mem
    rcases List.mem_append.1 mem with mem | mem
    · exact Nat.le_trans rightTight (heldTight' waiting mem)
    · rw [List.mem_singleton.1 mem]
      exact tight
  · rw [Expr.postorder, ← emitted, ← emitted']
    simp only [List.map_append, List.map_cons, List.map_nil, List.append_assoc]

/-- Operators of one level that group from the left, with right operands of the next level. -/
theorem Emits.applyLeft {l right : Level} {x y : Expr} {ts us : List Token} {op : Operator}
    (emitsLeft : Emits l x ts) (emitsRight : Emits right y us)
    (groups : op.groupsRight = false) (atLevel : op.precedence = l.binding)
    (next : right.binding = l.binding + 1) :
    Emits l (.apply op x y) (ts ++ .operator op :: us) := by
  refine emitsLeft.apply emitsRight (Nat.le_refl _) (by omega) (by omega) ?_ ?_
  · intro earlier tight
    exact Operator.yieldsTo_of_le groups (by omega)
  · intro later tight
    exact Operator.yieldsTo_eq_false_of_lt (by omega)

/-- Powers group from the right, so that a power waits for a power after it. -/
theorem Emits.applyPow {x y : Expr} {ts us : List Token} (emitsBase : Emits .atom x ts)
    (emitsExponent : Emits .power y us) :
    Emits .power (.apply .pow x y) (ts ++ .operator .pow :: us) := by
  refine emitsBase.apply emitsExponent (by decide) (by decide) (by decide) ?_ ?_
  · intro earlier tight
    exact absurd tight earlier.not_atom_le_precedence
  · intro later tight
    cases Operator.eq_pow_of_le tight
    rfl

/-- Every derived list emits its tree. -/
theorem emits_of_derives {l : Level} {e : Expr} {ts : List Token}
    (derived : Derives tokenAlphabet l e ts) : Emits l e ts := by
  induction derived with
  | number spelled =>
    cases spelled
    exact emits_number _
  | group _ ih => exact ih.group
  | power _ _ ihBase ihExponent => exact ihBase.applyPow ihExponent
  | product isProduct _ _ ihLeft ihRight =>
    rcases isProduct with rfl | rfl
    · exact ihLeft.applyLeft ihRight rfl rfl rfl
    · exact ihLeft.applyLeft ihRight rfl rfl rfl
  | sum isSum _ _ ihLeft ihRight =>
    rcases isSum with rfl | rfl
    · exact ihLeft.applyLeft ihRight rfl rfl rfl
    · exact ihLeft.applyLeft ihRight rfl rfl rfl
  | ofAtom _ ih => exact ih.loosen (by decide)
  | ofPower _ ih => exact ih.loosen (by decide)
  | ofProduct _ ih => exact ih.loosen (by decide)

/-- The conversion of a list that emits a tree is the postorder of the tree. -/
theorem Emits.postorder_eq {l : Level} {e : Expr} {ts : List Token} (emits : Emits l e ts) :
    postorder ts = e.postorder := by
  obtain ⟨out, held, ran, -, emitted⟩ := emits [] (clear_nil l)
  have flushed : (held.map operator).map token = held.map Token.operator := by
    rw [List.map_map]
    rfl
  rw [postorder, ran, List.append_nil, ← emitted, ← flushed]

end Pending

/-- **Postorder.** The conversion of a derived list is the postorder of its tree. Parentheses leave
no trace, however many there are. -/
theorem postorder_of_derives {l : Level} {e : Expr} {ts : List Token}
    (derived : Derives tokenAlphabet l e ts) : postorder ts = e.postorder :=
  (Pending.emits_of_derives derived).postorder_eq

/-- In `1-((2))^3^2` the powers group from the right and the parentheses are gone. -/
theorem postorder_of_grouped_powers :
    Derives tokenAlphabet .sum
        (.apply .sub (.number (.ofInt 1)) (.apply .pow (.number (.ofInt 2))
          (.apply .pow (.number (.ofInt 3)) (.number (.ofInt 2)))))
        [.number (.ofInt 1), .operator .sub, .opening, .opening, .number (.ofInt 2), .closing,
          .closing, .operator .pow, .number (.ofInt 3), .operator .pow, .number (.ofInt 2)] ∧
      postorder [.number (.ofInt 1), .operator .sub, .opening, .opening, .number (.ofInt 2),
          .closing, .closing, .operator .pow, .number (.ofInt 3), .operator .pow,
          .number (.ofInt 2)] =
        [.number (.ofInt 1), .number (.ofInt 2), .number (.ofInt 3), .number (.ofInt 2),
          .operator .pow, .operator .pow, .operator .sub] := by
  have atom : ∀ n : Int, Derives tokenAlphabet .atom (.number (.ofInt n)) [.number (.ofInt n)] :=
    fun n => .number rfl
  have group := Derives.group (.ofProduct (.ofPower (.ofAtom (.group
    (.ofProduct (.ofPower (.ofAtom (atom 2))))))))
  have powers := Derives.power group (.power (atom 3) (.ofAtom (atom 2)))
  have derived := Derives.sum (.inr rfl) (.ofProduct (.ofPower (.ofAtom (atom 1)))) (.ofPower powers)
  exact ⟨derived, postorder_of_derives derived⟩

end Calculator
