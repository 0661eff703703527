import Mathlib.Algebra.BigOperators.Group.Finset.Piecewise
import Mathlib.Data.Finset.Prod
import Mathlib.Data.List.Induction
import Calculator.Proofs.Postorder.Nesting

/-!
# Pairs of parentheses

An opening and a closing parenthesis are a pair if those between them are nested and agree in number. A
parenthesis is in one pair at most, so that the pairs and the parentheses without a partner make up
all parentheses of a list. Without a partner are as many as the counts from the end of the list tell,
because an opening parenthesis finds its partner exactly if what follows it is not nested.
-/

namespace Calculator.Token

open Finset

/-- The parentheses are nested and agree in number. -/
structure Balanced (ts : List Token) : Prop where
  nested : Nested ts
  equal : ts.count .opening = ts.count .closing

theorem balanced_iff_excess {ts : List Token} :
    Balanced ts ↔ excessClosings ts = 0 ∧ excessOpenings ts = 0 := by
  have counted := count_closing_add_excessOpenings ts
  constructor
  · rintro ⟨nested, equal⟩
    have closings := nested_iff_excessClosings.1 nested
    omega
  · rintro ⟨closings, openings⟩
    exact ⟨nested_iff_excessClosings.2 closings, by omega⟩

instance instDecidableBalanced (ts : List Token) : Decidable (Balanced ts) :=
  decidable_of_iff _ balanced_iff_excess.symm

/-- The parentheses at two places of a list belong together. -/
structure Paired (ts : List Token) (i j : Nat) : Prop where
  lt : i < j
  opens : ts[i]? = some .opening
  closes : ts[j]? = some .closing
  between : Balanced ((ts.take j).drop (i + 1))

instance instDecidablePaired (ts : List Token) (i j : Nat) : Decidable (Paired ts i j) :=
  decidable_of_iff (i < j ∧ ts[i]? = some .opening ∧ ts[j]? = some .closing ∧
      Balanced ((ts.take j).drop (i + 1)))
    ⟨fun ⟨lt, opens, closes, between⟩ => ⟨lt, opens, closes, between⟩,
      fun ⟨lt, opens, closes, between⟩ => ⟨lt, opens, closes, between⟩⟩

/-- The places of a token. -/
def places (t : Token) (ts : List Token) : Finset Nat := {i ∈ range ts.length | ts[i]? = some t}

/-- The places of the pairs of parentheses. -/
def pairs (ts : List Token) : Finset (Nat × Nat) :=
  {p ∈ range ts.length ×ˢ range ts.length | Paired ts p.1 p.2}

/-- The places of the opening parentheses that have no closing one. -/
def unpairedOpenings (ts : List Token) : Finset Nat :=
  places .opening ts \ (pairs ts).image Prod.fst

/-- The places of the closing parentheses that have no opening one. -/
def unpairedClosings (ts : List Token) : Finset Nat :=
  places .closing ts \ (pairs ts).image Prod.snd

section

variable {ts mid mid' front front' back back' : List Token} {t : Token} {i i' j j' : Nat}

theorem mem_places : i ∈ places t ts ↔ ts[i]? = some t := by
  simp only [places, mem_filter, Finset.mem_range, and_iff_right_iff_imp]
  intro found
  exact (List.getElem?_eq_some_iff.1 found).1

theorem mem_pairs : (i, j) ∈ pairs ts ↔ Paired ts i j := by
  simp only [pairs, mem_filter, mem_product, Finset.mem_range, and_iff_right_iff_imp]
  intro paired
  exact ⟨(List.getElem?_eq_some_iff.1 paired.opens).1, (List.getElem?_eq_some_iff.1 paired.closes).1⟩

theorem mem_unpairedOpenings :
    i ∈ unpairedOpenings ts ↔ ts[i]? = some .opening ∧ ∀ j, ¬ Paired ts i j := by
  simp [unpairedOpenings, mem_places, mem_pairs]

theorem mem_unpairedClosings :
    j ∈ unpairedClosings ts ↔ ts[j]? = some .closing ∧ ∀ i, ¬ Paired ts i j := by
  simp [unpairedClosings, mem_places, mem_pairs]

/-- The places of a token are as many as its occurrences. -/
theorem card_places (t : Token) (ts : List Token) : (places t ts).card = ts.count t := by
  induction ts with
  | nil => rfl
  | cons u rest ih =>
    rw [places, card_filter] at ih ⊢
    rw [List.length_cons, sum_range_succ', List.count_cons, ← ih]
    simp

theorem eq_append_of_getElem? (found : ts[i]? = some t) :
    ts = ts.take i ++ t :: ts.drop (i + 1) := by
  obtain ⟨lt, rfl⟩ := List.getElem?_eq_some_iff.1 found
  rw [List.getElem_cons_drop, List.take_append_drop]

/-- A pair splits the list into what is before it, between its parentheses and after it. -/
theorem paired_iff : Paired ts i j ↔ ∃ front mid back,
    ts = front ++ .opening :: (mid ++ .closing :: back) ∧ front.length = i ∧
      i + mid.length + 1 = j ∧ Balanced mid := by
  constructor
  · rintro ⟨lt, opens, closes, between⟩
    have inside : (ts.take j)[i]? = some .opening := by rw [List.getElem?_take_of_lt lt, opens]
    have bound := (List.getElem?_eq_some_iff.1 closes).1
    refine ⟨(ts.take j).take i, (ts.take j).drop (i + 1), ts.drop (j + 1), ?_, ?_, ?_, between⟩
    · rw [← List.cons_append, ← List.append_assoc, ← eq_append_of_getElem? inside]
      exact eq_append_of_getElem? closes
    · simp only [List.length_take]
      omega
    · simp only [List.length_drop, List.length_take]
      omega
  · rintro ⟨front, mid, back, rfl, rfl, rfl, balanced⟩
    have split : front ++ .opening :: (mid ++ .closing :: back) =
        (front ++ .opening :: mid) ++ .closing :: back := by simp
    have len : (front ++ .opening :: mid).length = front.length + mid.length + 1 := by simp; omega
    refine ⟨by omega, by simp, ?_, ?_⟩
    · rw [split, ← len]
      simp
    · rw [split, ← len, List.take_left, List.append_cons front, List.drop_left' (by simp)]
      exact balanced

/-- A balanced list does not close the group that is open before it. -/
theorem Balanced.not_nested_closing (balanced : Balanced mid) :
    ¬ Nested (mid ++ .closing :: back) := by
  intro nested
  have closed := nested (mid ++ [.closing]) ⟨back, by simp⟩
  have equal := balanced.equal
  simp only [List.count_append, List.count_singleton_self, List.count_singleton, beq_iff_eq,
    reduceCtorEq, if_false] at closed
  omega

/-- In front of a balanced list no group is open that the whole list closes. -/
theorem Balanced.not_balanced_opening (balanced : Balanced mid) :
    ¬ Balanced (front ++ .opening :: mid) := by
  intro whole
  have before := whole.nested front (List.prefix_append _ _)
  have equal := balanced.equal
  have equal' := whole.equal
  simp only [List.count_append, List.count_cons_self, List.count_cons, beq_iff_eq, reduceCtorEq,
    if_false] at equal'
  omega

theorem Balanced.eq_of_closing (balanced : Balanced mid) (balanced' : Balanced mid')
    (same : mid ++ .closing :: back = mid' ++ .closing :: back') : mid = mid' := by
  rcases List.append_eq_append_iff.1 same with ⟨more, rfl, rest⟩ | ⟨more, rfl, rest⟩
  · cases more with
    | nil => exact (List.append_nil _).symm
    | cons u more =>
      cases rest
      exact absurd balanced'.nested balanced.not_nested_closing
  · cases more with
    | nil => exact List.append_nil _
    | cons u more =>
      cases rest
      exact absurd balanced.nested balanced'.not_nested_closing

theorem Balanced.eq_of_opening (balanced : Balanced mid) (balanced' : Balanced mid')
    (same : front ++ .opening :: mid = front' ++ .opening :: mid') : mid = mid' := by
  rcases List.append_eq_append_iff.1 same with ⟨more, -, rest⟩ | ⟨more, -, rest⟩
  · cases more with
    | nil => exact (List.cons.inj rest).2
    | cons u more =>
      obtain ⟨-, rfl⟩ := List.cons.inj rest
      exact absurd balanced balanced'.not_balanced_opening
  · cases more with
    | nil => exact (List.cons.inj rest).2.symm
    | cons u more =>
      obtain ⟨-, rfl⟩ := List.cons.inj rest
      exact absurd balanced' balanced.not_balanced_opening

/-- An opening parenthesis has one closing one at most. -/
theorem Paired.closing_unique (paired : Paired ts i j) (paired' : Paired ts i j') : j = j' := by
  obtain ⟨front, mid, back, rfl, rfl, rfl, balanced⟩ := paired_iff.1 paired
  obtain ⟨front', mid', back', same, len, rfl, balanced'⟩ := paired_iff.1 paired'
  obtain ⟨-, rest⟩ := List.append_inj same len.symm
  rw [balanced.eq_of_closing balanced' (List.cons.inj rest).2]

/-- A closing parenthesis has one opening one at most. -/
theorem Paired.opening_unique (paired : Paired ts i j) (paired' : Paired ts i' j) : i = i' := by
  obtain ⟨front, mid, back, rfl, rfl, rfl, balanced⟩ := paired_iff.1 paired
  obtain ⟨front', mid', back', same, rfl, len, balanced'⟩ := paired_iff.1 paired'
  rw [← List.cons_append, ← List.cons_append, ← List.append_assoc, ← List.append_assoc] at same
  obtain ⟨same, -⟩ := List.append_inj same (by simp; omega)
  rw [balanced.eq_of_opening balanced' same] at len
  omega

/-- An opening parenthesis is in a pair or without a partner. -/
theorem card_pairs_add_unpairedOpenings (ts : List Token) :
    (pairs ts).card + (unpairedOpenings ts).card = ts.count .opening := by
  have inside : (pairs ts).image Prod.fst ⊆ places .opening ts := by
    intro i mem
    obtain ⟨⟨i, j⟩, pair, rfl⟩ := mem_image.1 mem
    exact mem_places.2 (mem_pairs.1 pair).opens
  have apart : Set.InjOn Prod.fst (pairs ts : Set (Nat × Nat)) := by
    rintro ⟨i, j⟩ mem ⟨i', j'⟩ mem' (rfl : i = i')
    rw [(mem_pairs.1 mem).closing_unique (mem_pairs.1 mem')]
  rw [unpairedOpenings, ← card_places, ← card_image_of_injOn apart, Nat.add_comm]
  exact card_sdiff_add_card_eq_card inside

/-- A closing parenthesis is in a pair or without a partner. -/
theorem card_pairs_add_unpairedClosings (ts : List Token) :
    (pairs ts).card + (unpairedClosings ts).card = ts.count .closing := by
  have inside : (pairs ts).image Prod.snd ⊆ places .closing ts := by
    intro j mem
    obtain ⟨⟨i, j⟩, pair, rfl⟩ := mem_image.1 mem
    exact mem_places.2 (mem_pairs.1 pair).closes
  have apart : Set.InjOn Prod.snd (pairs ts : Set (Nat × Nat)) := by
    rintro ⟨i, j⟩ mem ⟨i', j'⟩ mem' (rfl : j = j')
    rw [(mem_pairs.1 mem).opening_unique (mem_pairs.1 mem')]
  rw [unpairedClosings, ← card_places, ← card_image_of_injOn apart, Nat.add_comm]
  exact card_sdiff_add_card_eq_card inside

theorem nested_concat : Nested (ts ++ [t]) ↔
    Nested ts ∧ (ts ++ [t]).count .closing ≤ (ts ++ [t]).count .opening := by
  constructor
  · intro nested
    exact ⟨fun front part => nested front (List.prefix_append_of_prefix part),
      nested _ (List.prefix_refl _)⟩
  · rintro ⟨nested, whole⟩ front part
    rcases List.prefix_concat_iff.1 part with rfl | part
    · exact whole
    · exact nested front part

/-- A list that is not nested starts with a balanced one whose group is closed. -/
theorem exists_balanced_closing (unnested : ¬ Nested ts) :
    ∃ mid back, ts = mid ++ .closing :: back ∧ Balanced mid := by
  induction ts using List.reverseRecOn with
  | nil => exact absurd (by decide) unnested
  | append_singleton ts t ih =>
    by_cases nested : Nested ts
    · have before := nested ts (List.prefix_refl _)
      rw [nested_concat, not_and, Nat.not_le] at unnested
      have excess := unnested nested
      rw [List.count_append, List.count_append] at excess
      cases t with
      | closing =>
        refine ⟨ts, [], rfl, nested, ?_⟩
        simp only [List.count_singleton_self, List.count_singleton, beq_iff_eq, reduceCtorEq,
          if_false] at excess
        omega
      | number value => simp at excess; omega
      | operator op => simp at excess; omega
      | opening => simp at excess; omega
    · obtain ⟨mid, back, rfl, balanced⟩ := ih nested
      exact ⟨mid, back ++ [t], by simp, balanced⟩

/-- A list that leaves groups open ends with a balanced one in the last of them. -/
theorem exists_opening_balanced (waiting : 0 < excessOpenings ts) :
    ∃ front mid, ts = front ++ .opening :: mid ∧ Balanced mid := by
  induction ts with
  | nil => exact absurd waiting (Nat.lt_irrefl 0)
  | cons t rest ih =>
    by_cases later : 0 < excessOpenings rest
    · obtain ⟨front, mid, rfl, balanced⟩ := ih later
      exact ⟨t :: front, mid, rfl, balanced⟩
    · cases t with
      | opening =>
        refine ⟨[], rest, rfl, balanced_iff_excess.2 ?_⟩
        simp only [excessOpenings] at waiting
        split at waiting
        · exact ⟨by assumption, by omega⟩
        · exact absurd waiting later
      | number value => exact absurd waiting later
      | operator op => exact absurd waiting later
      | closing => exact absurd waiting later

/-- An opening parenthesis has no partner exactly if what follows it closes only its own groups. -/
theorem mem_unpairedOpenings_iff_nested :
    i ∈ unpairedOpenings ts ↔ ts[i]? = some .opening ∧ Nested (ts.drop (i + 1)) := by
  rw [mem_unpairedOpenings, and_congr_right_iff]
  intro opens
  have split := eq_append_of_getElem? opens
  have len : (ts.take i).length = i := by
    have bound := (List.getElem?_eq_some_iff.1 opens).1
    simp only [List.length_take]
    omega
  constructor
  · intro alone
    by_contra unnested
    obtain ⟨mid, back, closed, balanced⟩ := exists_balanced_closing unnested
    rw [closed] at split
    exact alone _ (paired_iff.2 ⟨_, mid, back, split, len, rfl, balanced⟩)
  · intro nested j paired
    obtain ⟨front, mid, back, rfl, rfl, -, balanced⟩ := paired_iff.1 paired
    rw [List.append_cons, List.drop_left' (by simp)] at nested
    exact balanced.not_nested_closing nested

theorem card_unpairedOpenings (ts : List Token) : (unpairedOpenings ts).card = excessOpenings ts := by
  have counted : ∀ ts : List Token, unpairedOpenings ts =
      {i ∈ range ts.length | ts[i]? = some .opening ∧ Nested (ts.drop (i + 1))} := by
    intro ts
    ext i
    rw [mem_unpairedOpenings_iff_nested, mem_filter, Finset.mem_range, iff_and_self]
    exact fun found => (List.getElem?_eq_some_iff.1 found.1).1
  induction ts with
  | nil => rfl
  | cons t rest ih =>
    rw [counted, card_filter] at ih ⊢
    rw [List.length_cons, sum_range_succ']
    simp only [List.getElem?_cons_succ, List.drop_succ_cons, ih]
    cases t with
    | opening =>
      by_cases zero : excessClosings rest = 0
      · simp [excessOpenings, nested_iff_excessClosings, zero]
      · simp [excessOpenings, nested_iff_excessClosings, zero]
    | number value => simp [excessOpenings]
    | operator op => simp [excessOpenings]
    | closing => simp [excessOpenings]

theorem card_unpairedClosings (ts : List Token) : (unpairedClosings ts).card = excessClosings ts := by
  have openings := card_pairs_add_unpairedOpenings ts
  have closings := card_pairs_add_unpairedClosings ts
  have counted := count_closing_add_excessOpenings ts
  rw [card_unpairedOpenings] at openings
  omega

end

/-- In `)(()` the last two parentheses are a pair, and the first two have no partner. -/
example : pairs [.closing, .opening, .opening, .closing] = {(2, 3)} ∧
    unpairedOpenings [.closing, .opening, .opening, .closing] = {1} ∧
    unpairedClosings [.closing, .opening, .opening, .closing] = {0} := by decide +kernel

end Calculator.Token
