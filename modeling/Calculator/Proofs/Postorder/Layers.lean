import Mathlib.Data.List.Chain
import Calculator.Proofs.Operator.Precedence
import Calculator.Proofs.Postorder.Conservation

/-!
# Layers of waiting operators

An operator goes onto the stack after all that it releases have left it, and entries leave the stack from
its top. So no operator ever waits above one that it would have released. Of the operators that wait in
one group the upper ones bind tighter, and only powers wait above their like: at most one addition or
subtraction, above it at most one multiplication or division, and above these any number of powers. They
leave in the order of falling precedence.
-/

namespace Calculator

open Token

namespace Operator

theorem yieldsTo_eq_false_iff {upper lower : Operator} :
    upper.yieldsTo lower = false ↔
      lower.precedence < upper.precedence ∨ lower = pow ∧ upper = pow := by
  cases upper <;> cases lower <;> decide

/-- An operator that comes while `lower` waits and does not release it. -/
def WaitsAbove (upper lower : Operator) : Prop := upper.yieldsTo lower = false

theorem WaitsAbove.precedence_le {upper lower : Operator} (waits : upper.WaitsAbove lower) :
    lower.precedence ≤ upper.precedence := by
  rcases yieldsTo_eq_false_iff.1 waits with looser | ⟨rfl, rfl⟩
  · exact Nat.le_of_lt looser
  · exact Nat.le_refl _

/-- Below an operator other than a power waits nothing of its own precedence. -/
theorem WaitsAbove.precedence_lt {upper lower : Operator} (waits : upper.WaitsAbove lower)
    (other : upper ≠ pow) : lower.precedence < upper.precedence :=
  (yieldsTo_eq_false_iff.1 waits).resolve_right fun powers => other powers.2

theorem WaitsAbove.trans {upper middle lower : Operator} (waits : upper.WaitsAbove middle)
    (waits' : middle.WaitsAbove lower) : upper.WaitsAbove lower := by
  refine yieldsTo_eq_false_iff.2 ?_
  rcases yieldsTo_eq_false_iff.1 waits' with looser | ⟨rfl, rfl⟩
  · exact .inl (Nat.lt_of_lt_of_le looser waits.precedence_le)
  · exact yieldsTo_eq_false_iff.1 waits

instance instTransWaitsAbove : Trans WaitsAbove WaitsAbove WaitsAbove := ⟨WaitsAbove.trans⟩

/-- Of additions and subtractions at most one waits. -/
theorem exists_sum {ops : List Operator} (layered : ops.Pairwise WaitsAbove)
    (loose : ∀ op ∈ ops, op.precedence ≤ 1) :
    ∃ sum : Option Operator, ops = sum.toList ∧ ∀ op ∈ sum, op = add ∨ op = sub := by
  cases ops with
  | nil => exact ⟨none, rfl, nofun⟩
  | cons op rest =>
    have level : op.precedence = 1 :=
      Nat.le_antisymm (loose op List.mem_cons_self) op.one_le_precedence
    have other : op ≠ pow := by
      rintro rfl
      cases level
    have alone : rest = [] := by
      refine List.eq_nil_iff_forall_not_mem.2 fun lower mem => ?_
      have looser := (List.rel_of_pairwise_cons layered mem).precedence_lt other
      have least := lower.one_le_precedence
      omega
    refine ⟨some op, by rw [alone]; rfl, ?_⟩
    rintro _ ⟨⟩
    exact eq_add_or_sub level

/-- Below the powers waits at most one multiplication or division, and then at most one addition or
subtraction. -/
theorem exists_product {ops : List Operator} (layered : ops.Pairwise WaitsAbove)
    (loose : ∀ op ∈ ops, op.precedence ≤ 2) :
    ∃ product sum : Option Operator, ops = product.toList ++ sum.toList ∧
      (∀ op ∈ product, op = mul ∨ op = div) ∧ ∀ op ∈ sum, op = add ∨ op = sub := by
  cases ops with
  | nil => exact ⟨none, none, rfl, nofun, nofun⟩
  | cons op rest =>
    have bound := loose op List.mem_cons_self
    by_cases level : op.precedence = 2
    · have other : op ≠ pow := by
        rintro rfl
        cases level
      have looser : ∀ lower ∈ rest, lower.precedence ≤ 1 := by
        intro lower mem
        have below := (List.rel_of_pairwise_cons layered mem).precedence_lt other
        omega
      obtain ⟨sum, rfl, sums⟩ := exists_sum layered.of_cons looser
      refine ⟨some op, sum, rfl, ?_, sums⟩
      rintro _ ⟨⟩
      exact eq_mul_or_div level
    · have looser : ∀ lower ∈ op :: rest, lower.precedence ≤ 1 := by
        intro lower mem
        rcases List.mem_cons.1 mem with rfl | mem
        · omega
        · have below := (List.rel_of_pairwise_cons layered mem).precedence_le
          omega
      obtain ⟨sum, whole, sums⟩ := exists_sum layered looser
      exact ⟨none, sum, whole, nofun, sums⟩

/-- Operators of which each waits above the next are powers, at most one multiplication or division, and
at most one addition or subtraction. -/
theorem exists_layers {ops : List Operator} (layered : ops.Pairwise WaitsAbove) :
    ∃ (powers : Nat) (product sum : Option Operator),
      ops = List.replicate powers pow ++ product.toList ++ sum.toList ∧
      (∀ op ∈ product, op = mul ∨ op = div) ∧ ∀ op ∈ sum, op = add ∨ op = sub := by
  induction ops with
  | nil => exact ⟨0, none, none, rfl, nofun, nofun⟩
  | cons op rest ih =>
    by_cases power : op = pow
    · obtain ⟨powers, product, sum, rfl, products, sums⟩ := ih layered.of_cons
      subst power
      exact ⟨powers + 1, product, sum, rfl, products, sums⟩
    · have loose : ∀ lower ∈ op :: rest, lower.precedence ≤ 2 := by
        have top : op.precedence ≤ 2 := by
          cases op with
          | pow => exact absurd rfl power
          | add | sub | mul | div => decide
        intro lower mem
        rcases List.mem_cons.1 mem with rfl | mem
        · exact top
        · exact Nat.le_trans (List.rel_of_pairwise_cons layered mem).precedence_le top
      obtain ⟨product, sum, whole, products, sums⟩ := exists_product layered loose
      exact ⟨0, product, sum, whole, products, sums⟩

/-- Precedences fall, or stay, from each operator to the next. -/
def Falling (ops : List Operator) : Prop := (ops.map precedence).Pairwise (· ≥ ·)

theorem falling_of_pairwise {ops : List Operator} (layered : ops.Pairwise WaitsAbove) :
    Falling ops :=
  List.pairwise_map.2 (layered.imp fun waits => waits.precedence_le)

end Operator

namespace Pending

open Operator (Falling)

/-- The entry releases nothing at the one below it. -/
def Keeps (upper lower : Pending) : Prop := ∀ op, upper = operator op → lower.precedes op = false

/-- After a step every entry still keeps the one below it. -/
theorem isChain_step {stack : List Pending} (kept : stack.IsChain Keeps) (t : Token) :
    (step stack t).2.IsChain Keeps := by
  cases t with
  | number value => exact kept
  | operator op =>
    refine List.isChain_cons.2 ⟨?_, kept.suffix (List.dropWhile_suffix _)⟩
    rintro top mem _ ⟨⟩
    have stays := List.head?_dropWhile_not (precedes op) stack
    rwa [Option.mem_def.1 mem] at stays
  | opening => exact List.isChain_cons.2 ⟨fun _ _ _ => nofun, kept⟩
  | closing =>
    -- The entries below the group that is closed were a chain before.
    exact kept.suffix ((List.drop_suffix _ _).trans (List.dropWhile_suffix _))

theorem isChain_run {stack : List Pending} (kept : stack.IsChain Keeps) (ts : List Token) :
    (run stack ts).2.IsChain Keeps := by
  induction ts generalizing stack with
  | nil => exact kept
  | cons t rest ih => exact ih (isChain_step kept t)

/-- The operators of one group wait in layers. -/
theorem pairwise_waitsAbove {stack : List Pending} (kept : stack.IsChain Keeps)
    {ops : List Operator} (part : ops.map operator <:+: stack) :
    ops.Pairwise Operator.WaitsAbove := by
  have segment := List.IsChain.infix kept part
  have chain := (List.isChain_map operator).1 segment
  exact List.isChain_iff_pairwise.1 (chain.imp fun upper lower keeps => keeps upper rfl)

/-- On top of a stack are the operators of the last group. -/
theorem exists_takeWhile_isOperator (stack : List Pending) :
    ∃ ops : List Operator, stack.takeWhile isOperator = ops.map operator := by
  induction stack with
  | nil => exact ⟨[], rfl⟩
  | cons entry rest ih =>
    cases entry with
    | operator op =>
      obtain ⟨ops, taken⟩ := ih
      exact ⟨op :: ops, congrArg (operator op :: ·) taken⟩
    | group => exact ⟨[], rfl⟩

theorem map_token_operator (ops : List Operator) :
    (ops.map operator).map token = ops.map Token.operator := by
  simp [token, Function.comp_def]

theorem token_injective : Function.Injective token := by
  intro entry entry' same
  cases entry <;> cases entry' <;> simp_all [token]

/-- A closing parenthesis puts out the operators of the last group and removes its opening. -/
theorem exists_step_closing (stack : List Pending) :
    ∃ (ops : List Operator) (below : List Pending),
      stack = ops.map operator ++ below ∧ (∀ top ∈ below.head?, top = group) ∧
        step stack .closing = (ops.map Token.operator, below.drop 1) := by
  obtain ⟨ops, top⟩ := exists_takeWhile_isOperator stack
  refine ⟨ops, stack.dropWhile isOperator, ?_, ?_, ?_⟩
  · rw [← top, List.takeWhile_append_dropWhile]
  · intro entry mem
    have stays := List.head?_dropWhile_not isOperator stack
    rw [Option.mem_def.1 mem] at stays
    cases entry with
    | operator op => cases stays
    | group => rfl
  · rw [step, top, map_token_operator]

/-- Operators that leave one after the other at the end wait one below the other. -/
theorem infix_of_tokens {stack : List Pending} {ops : List Operator}
    (part : ops.map Token.operator <:+: tokens stack) : ops.map operator <:+: stack := by
  rw [← map_token_operator] at part
  obtain ⟨entries, found, same⟩ := List.infix_map_iff.1 part
  rwa [List.map_injective_iff.2 token_injective same]

/-- **Layers.** Take the stack after any number of tokens of any list. It holds operators and openings.
An operator that waits in a group above another does not release it: it binds tighter, or both are
powers. The operators of a group, from the top, are powers, at most one multiplication or division,
and at most one addition or subtraction. A closing parenthesis puts out all operators of the last
group, by falling precedence, and at the end of the list those of every group leave in such an order. -/
theorem stack_layers (ts : List Token) (taken : Nat) :
    let stack := (run [] (ts.take taken)).2
    (run [] ts).2 = (run stack (ts.drop taken)).2 ∧
    (∀ t ∈ tokens stack, t = .opening ∨ ∃ op, t = .operator op) ∧
    (∀ (upper lower : Operator) (between : List Operator),
      (upper :: between ++ [lower]).map operator <:+: stack →
        upper.yieldsTo lower = false ∧
          (lower.precedence < upper.precedence ∨ lower = .pow ∧ upper = .pow)) ∧
    (∀ ops : List Operator, ops.map operator <:+: stack →
      ∃ (powers : Nat) (product sum : Option Operator),
        ops = List.replicate powers .pow ++ product.toList ++ sum.toList ∧
        (∀ op ∈ product, op = .mul ∨ op = .div) ∧ ∀ op ∈ sum, op = .add ∨ op = .sub) ∧
    (∃ (ops : List Operator) (below : List Pending),
      stack = ops.map operator ++ below ∧ (∀ top ∈ below.head?, top = group) ∧
        step stack .closing = (ops.map Token.operator, below.drop 1) ∧ Falling ops) ∧
    ∀ ops : List Operator, ops.map Token.operator <:+: tokens stack → Falling ops := by
  intro stack
  have kept : stack.IsChain Keeps := isChain_run List.IsChain.nil _
  refine ⟨?_, ?_, fun upper lower between part => ?_, fun ops part => ?_, ?_, fun ops part => ?_⟩
  · conv_lhs => rw [← List.take_append_drop taken ts, run_append]
  · intro t mem
    obtain ⟨entry, -, rfl⟩ := List.mem_map.1 mem
    cases entry with
    | operator op => exact .inr ⟨op, rfl⟩
    | group => exact .inl rfl
  · have waits : upper.WaitsAbove lower :=
      List.rel_of_pairwise_cons (pairwise_waitsAbove kept part) (by simp)
    exact ⟨waits, Operator.yieldsTo_eq_false_iff.1 waits⟩
  · exact Operator.exists_layers (pairwise_waitsAbove kept part)
  · obtain ⟨ops, below, split, opened, closed⟩ := exists_step_closing stack
    have part : ops.map operator <:+: stack := ⟨[], below, split.symm⟩
    exact ⟨ops, below, split, opened, closed,
      Operator.falling_of_pairwise (pairwise_waitsAbove kept part)⟩
  · exact Operator.falling_of_pairwise (pairwise_waitsAbove kept (infix_of_tokens part))

/-- After `1 - 2 * (3 ^ 4 ^ 5` the powers wait in a group above the multiplication, and outside of it the
subtraction is the last that leaves. -/
theorem stack_layers_of_open_powers :
    let ts : List Token := [.number (.ofInt 1), .operator .sub, .number (.ofInt 2), .operator .mul,
      .opening, .number (.ofInt 3), .operator .pow, .number (.ofInt 4), .operator .pow,
      .number (.ofInt 5)]
    (run [] (ts.take 10)).2 =
        [operator .pow, operator .pow, group, operator .mul, operator .sub] ∧
      Operator.yieldsTo .pow .pow = false ∧ Operator.yieldsTo .mul .sub = false ∧
      Falling [.mul, .sub] := by
  intro ts
  obtain ⟨-, -, waits, -, -, falling⟩ := stack_layers ts 10
  have powers : [Operator.pow, .pow].map operator <:+: (run [] (ts.take 10)).2 :=
    ⟨[], [group, operator .mul, operator .sub], rfl⟩
  have outside : [Operator.mul, .sub].map operator <:+: (run [] (ts.take 10)).2 :=
    ⟨[operator .pow, operator .pow, group], [], rfl⟩
  have flushed : [Operator.mul, .sub].map Token.operator <:+: tokens (run [] (ts.take 10)).2 :=
    ⟨[.operator .pow, .operator .pow, .opening], [], rfl⟩
  exact ⟨rfl, (waits .pow .pow [] powers).1, (waits .mul .sub [] outside).1, falling _ flushed⟩

end Pending

end Calculator
