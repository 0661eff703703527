import Calculator.Proofs.Operator.Precedence

/-!
# Recognizing derived lists from the left

Whether a list of tokens is derived by the grammar shows in one pass from the left that knows only
the number of open groups and whether an operand or an operator comes next. From a derivation the
order of the tokens is read off rule by rule. For the other direction the list is cut at the end of
the innermost open group. What precedes the cut is a chain of atoms with operators between them, and
a chain is a sum, because an atom with an operator can be put in front of any sum.
-/

namespace Calculator

open Token

/-- The order of operands and operators in `ts`, where an operand comes next if `expecting` and
`depth` groups are open, which `ts` closes. -/
inductive Token.InOrder : (expecting : Bool) → (depth : Nat) → (ts : List Token) → Prop where
  | done : InOrder false 0 []
  | number (value : Binary64) {depth : Nat} {rest : List Token} :
      InOrder false depth rest → InOrder true depth (.number value :: rest)
  | opening {depth : Nat} {rest : List Token} :
      InOrder true (depth + 1) rest → InOrder true depth (.opening :: rest)
  | operator (op : Operator) {depth : Nat} {rest : List Token} :
      InOrder true depth rest → InOrder false depth (.operator op :: rest)
  | closing {depth : Nat} {rest : List Token} :
      InOrder false depth rest → InOrder false (depth + 1) (.closing :: rest)

/-- A derived list is one operand to what follows it. -/
theorem Token.InOrder.append_of_derives {l : Level} {e : Expr} {ts : List Token}
    (derived : Derives tokenAlphabet l e ts) {depth : Nat} {rest : List Token}
    (after : InOrder false depth rest) : InOrder true depth (ts ++ rest) := by
  induction derived generalizing depth rest with
  | number spelled =>
    cases spelled
    exact .number _ after
  | group _ ih =>
    rw [List.append_assoc]
    exact .opening (ih (.closing after))
  | power _ _ ihBase ihExponent =>
    rw [List.append_assoc]
    exact ihBase (.operator _ (ihExponent after))
  | product _ _ _ ihLeft ihRight =>
    rw [List.append_assoc]
    exact ihLeft (.operator _ (ihRight after))
  | sum _ _ _ ihLeft ihRight =>
    rw [List.append_assoc]
    exact ihLeft (.operator _ (ihRight after))
  | ofAtom _ ih => exact ih after
  | ofPower _ ih => exact ih after
  | ofProduct _ ih => exact ih after

/-- An atom and an operator in front of a list that is derived at the level of the operator or a
looser one. The operator goes to the leftmost operand that binds at least as tightly. -/
theorem exists_derives_prepend {x : Expr} {ts : List Token} (atom : Derives tokenAlphabet .atom x ts)
    {op : Operator} {l : Level} {e : Expr} {us : List Token} (derived : Derives tokenAlphabet l e us)
    (tight : l.binding ≤ op.precedence) :
    ∃ e', Derives tokenAlphabet l e' (ts ++ .operator op :: us) := by
  induction derived with
  | number _ => exact absurd tight op.not_atom_le_precedence
  | group _ _ => exact absurd tight op.not_atom_le_precedence
  | power base exponent _ _ =>
    cases Operator.eq_pow_of_le tight
    exact ⟨_, .power atom (.power base exponent)⟩
  | product isProduct _ right ihLeft _ =>
    obtain ⟨left', derivedLeft⟩ := ihLeft tight
    have whole := Derives.product isProduct derivedLeft right
    rw [List.append_assoc] at whole
    exact ⟨_, whole⟩
  | sum isSum _ right ihLeft _ =>
    obtain ⟨left', derivedLeft⟩ := ihLeft tight
    have whole := Derives.sum isSum derivedLeft right
    rw [List.append_assoc] at whole
    exact ⟨_, whole⟩
  | ofAtom exponent _ =>
    cases Operator.eq_pow_of_le tight
    exact ⟨_, .power atom (.ofAtom exponent)⟩
  | ofPower right ih =>
    rcases Nat.lt_or_ge 2 op.precedence with tighter | equal
    · obtain ⟨e', derived'⟩ := ih tighter
      exact ⟨e', .ofPower derived'⟩
    · have isProduct := Operator.eq_mul_or_div (Nat.le_antisymm equal tight)
      exact ⟨_, .product isProduct (.ofPower (.ofAtom atom)) right⟩
  | ofProduct right ih =>
    rcases Nat.lt_or_ge 1 op.precedence with tighter | equal
    · obtain ⟨e', derived'⟩ := ih tighter
      exact ⟨e', .ofProduct derived'⟩
    · have isSum := Operator.eq_add_or_sub (Nat.le_antisymm equal tight)
      exact ⟨_, .sum isSum (.ofProduct (.ofPower (.ofAtom atom))) right⟩

/-- What stands in one group, from its start if an operand is expected and else from the end of an
operand: atoms with single operators between them. -/
inductive Token.Chain : (expecting : Bool) → List Token → Prop where
  | nil : Chain false []
  | operator (op : Operator) {ts : List Token} : Chain true ts → Chain false (.operator op :: ts)
  | atom {e : Expr} {ts us : List Token} :
      Derives tokenAlphabet .atom e ts → Chain false us → Chain true (ts ++ us)

/-- A chain from the start of a group is a sum, and one from the end of an operand is completed to a
sum by any atom. -/
theorem Token.Chain.derives {expecting : Bool} {ts : List Token} (chain : Chain expecting ts) :
    (expecting = true → ∃ e, Derives tokenAlphabet .sum e ts) ∧
      (expecting = false → ∀ {x : Expr} {us : List Token}, Derives tokenAlphabet .atom x us →
        ∃ e, Derives tokenAlphabet .sum e (us ++ ts)) := by
  induction chain with
  | nil =>
    refine ⟨nofun, fun _ x us atom => ?_⟩
    rw [List.append_nil]
    exact ⟨x, .ofProduct (.ofPower (.ofAtom atom))⟩
  | operator op _ ih =>
    refine ⟨nofun, fun _ x us atom => ?_⟩
    obtain ⟨e, derived⟩ := ih.1 rfl
    exact exists_derives_prepend atom derived op.one_le_precedence
  | atom atom _ ih => exact ⟨fun _ => ih.2 rfl atom, nofun⟩

/-- The list is `body` and, if groups are open, the end of the innermost one and what follows it. -/
def Token.ClosesAfter (body : List Token) : (depth : Nat) → List Token → Prop
  | 0, ts => ts = body
  | depth + 1, ts => ∃ rest, ts = body ++ .closing :: rest ∧ InOrder false depth rest

theorem Token.ClosesAfter.prepend {body ts : List Token} {depth : Nat}
    (closes : ClosesAfter body depth ts) (us : List Token) :
    ClosesAfter (us ++ body) depth (us ++ ts) := by
  cases depth with
  | zero => exact congrArg (us ++ ·) closes
  | succ depth =>
    obtain ⟨rest, rfl, after⟩ := closes
    exact ⟨rest, (List.append_assoc ..).symm, after⟩

/-- The rest of the innermost open group is a chain. A group inside of it is skipped as one atom, so
that the recursion is on the length of the list. -/
theorem Token.InOrder.exists_chain : ∀ {expecting : Bool} {depth : Nat} {ts : List Token},
    InOrder expecting depth ts → ∃ body, Chain expecting body ∧ ClosesAfter body depth ts
  | _, _, _, .done => ⟨[], .nil, rfl⟩
  | _, _, _, .closing after => ⟨[], .nil, _, rfl, after⟩
  | _, _, _, .number value after => by
    obtain ⟨body, chain, closes⟩ := after.exists_chain
    exact ⟨.number value :: body, .atom (.number rfl) chain, closes.prepend [.number value]⟩
  | _, _, _, .operator op after => by
    obtain ⟨body, chain, closes⟩ := after.exists_chain
    exact ⟨.operator op :: body, .operator op chain, closes.prepend [.operator op]⟩
  | _, _, .opening :: ts, .opening inside => by
    obtain ⟨body, chain, rest, split, after⟩ := inside.exists_chain
    have shorter : rest.length < ts.length := by
      have length := congrArg List.length split
      simp only [List.length_append, List.length_cons] at length
      omega
    obtain ⟨body', chain', closes⟩ := after.exists_chain
    obtain ⟨e, derived⟩ := chain.derives.1 rfl
    have group : Derives tokenAlphabet .atom e (.opening :: body ++ [.closing]) := .group derived
    have cut : .opening :: ts = (.opening :: body ++ [.closing]) ++ rest := by simp [split]
    rw [cut]
    exact ⟨_, .atom group chain', closes.prepend _⟩
termination_by _ _ ts => ts.length

/-- **Recognition.** The grammar derives exactly the lists whose tokens are in order. -/
theorem inOrder_iff_derives {ts : List Token} :
    InOrder true 0 ts ↔ ∃ e, Derives tokenAlphabet .sum e ts := by
  constructor
  · intro inOrder
    obtain ⟨body, chain, rfl⟩ := inOrder.exists_chain
    exact chain.derives.1 rfl
  · rintro ⟨e, derived⟩
    have inOrder := InOrder.append_of_derives derived .done
    rwa [List.append_nil] at inOrder

end Calculator
