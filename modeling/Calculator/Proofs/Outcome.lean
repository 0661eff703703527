import Mathlib.Data.List.Forall2
import Calculator.Evaluation

/-!
# Steps that can fail

Steps in sequence have a result exactly if each of them has one, and otherwise they fail as the first
of them that fails. So a text has a postorder if it passes the checks and its literals are decimals, and
it has a result if its postorder has a value.
-/

namespace Calculator

namespace Outcome

variable {ε ε' α β : Type} {x : Except ε α} {next : α → Except ε β}

theorem bind_eq_ok_iff {b : β} : x >>= next = .ok b ↔ ∃ a, x = .ok a ∧ next a = .ok b := by
  cases x with
  | error fault => simp [bind, Except.bind]
  | ok a => simp [bind, Except.bind]

theorem bind_eq_error_iff {fault : ε} :
    x >>= next = .error fault ↔ x = .error fault ∨ ∃ a, x = .ok a ∧ next a = .error fault := by
  cases x with
  | error fault => simp [bind, Except.bind]
  | ok a => simp [bind, Except.bind]

theorem pure_eq_ok_iff {a b : α} : (pure a : Except ε α) = .ok b ↔ a = b := by
  simp [pure, Except.pure]

theorem pure_ne_error {a : α} {fault : ε} : (pure a : Except ε α) ≠ .error fault := nofun

/-- Naming a fault otherwise keeps the result. -/
theorem mapError_eq_ok_iff {name : ε → ε'} {a : α} : x.mapError name = .ok a ↔ x = .ok a := by
  cases x with
  | error cause => exact ⟨nofun, nofun⟩
  | ok result => exact ⟨fun kept => congrArg _ (Except.ok.inj kept), fun kept => by rw [kept]; rfl⟩

theorem mapError_eq_error_iff {name : ε → ε'} {fault : ε'} :
    x.mapError name = .error fault ↔ ∃ cause, x = .error cause ∧ name cause = fault := by
  cases x with
  | error cause =>
    constructor
    · intro named
      exact ⟨cause, rfl, Except.error.inj named⟩
    · rintro ⟨_, ⟨⟩, named⟩
      exact congrArg _ named
  | ok result =>
    constructor
    · nofun
    · rintro ⟨cause, failed, -⟩
      cases failed

/-- Steps over the entries of a list that each have a result have a list of results. -/
theorem exists_mapM_eq_ok {f : α → Except ε β} {R : α → β → Prop} {as : List α}
    (each : ∀ a ∈ as, ∃ b, f a = .ok b ∧ R a b) :
    ∃ bs, as.mapM f = .ok bs ∧ List.Forall₂ R as bs := by
  induction as with
  | nil => exact ⟨[], rfl, .nil⟩
  | cons a rest ih =>
    obtain ⟨b, first, related⟩ := each a List.mem_cons_self
    obtain ⟨bs, later, allRelated⟩ := ih fun c mem => each c (List.mem_cons_of_mem a mem)
    refine ⟨b :: bs, ?_, .cons related allRelated⟩
    rw [List.mapM_cons, first]
    exact bind_eq_ok_iff.2 ⟨b, rfl, bind_eq_ok_iff.2 ⟨bs, later, rfl⟩⟩

end Outcome

open Outcome

theorem postorderOf_eq_ok_iff {source : String} {tokens : List Token} :
    postorderOf source = .ok tokens ↔
      ∃ text ts, Source.accept source.toList = .ok text ∧ Token.ofText text = .ok ts ∧
        postorder ts = tokens := by
  simp only [postorderOf, bind_eq_ok_iff, mapError_eq_ok_iff, pure_eq_ok_iff, exists_and_left]

theorem evaluate_eq_ok_iff {places : Nat} {source : String} {result : Number} :
    evaluate places source = .ok result ↔
      ∃ tokens value, postorderOf source = .ok tokens ∧ reduce tokens = .ok value ∧
        .ofBinary64 (value.roundToPlaces places) = result := by
  simp only [evaluate, bind_eq_ok_iff, mapError_eq_ok_iff, pure_eq_ok_iff, exists_and_left]

theorem evaluate_eq_error_iff {places : Nat} {source : String} {failure : Failure} :
    evaluate places source = .error failure ↔
      postorderOf source = .error failure ∨
        ∃ tokens fault, postorderOf source = .ok tokens ∧ reduce tokens = .error fault ∧
          .value fault = failure := by
  simp only [evaluate, bind_eq_error_iff, mapError_eq_error_iff, pure_ne_error, and_false,
    exists_false, or_false, exists_and_left]

end Calculator
