import Calculator.Proofs.Binary64.Settled
import Calculator.Proofs.Evaluation.Grammar
import Calculator.Proofs.Number

/-!
# Results as expressions

The text of a result that is not negative is one literal, and it is read as the value of the result. This
value has been rounded, so that it is not changed by rounding it again, and the same number stands for it.
-/

namespace Calculator

open Binary64

/-- **Printed results.** The text of a result that is finite and not negative is accepted, is one literal,
and evaluates to the same result with the same number of places. -/
theorem evaluate_toString {places : Nat} {source : String} {n : Number} {q : Rat}
    (evaluated : evaluate places source = .ok n) (value : n.toBinary64.toRat? = some q)
    (nonneg : 0 ≤ q) :
    Source.accept (toString n).toList = .ok n.text ∧
      Lexeme.ofText n.text = [.literal n.text] ∧
      Token.ofText n.text = .ok [.number n.toBinary64] ∧
      evaluate places (toString n) = .ok n := by
  obtain ⟨tokens, x, -, -, made⟩ := evaluate_eq_ok_iff.1 evaluated
  subst made
  have settled : Settled places (Number.ofBinary64 (x.roundToPlaces places)).toBinary64 := by
    rcases Number.toBinary64_ofBinary64 (x.roundToPlaces places) with same | ⟨-, zero⟩
    · rw [same]
      exact settled_roundToPlaces places x
    · rw [zero]
      exact settled_zero places false
  have normal := Number.ofBinary64_toBinary64_ofBinary64 (x.roundToPlaces places)
  generalize Number.ofBinary64 (x.roundToPlaces places) = n at *
  obtain ⟨r, spelled, nearest⟩ := Number.exists_spells_text normal value nonneg
  have written : (toString n).toList = n.text := String.toList_ofList
  have accepted : Source.accept n.text = .ok n.text := (sound_of_spells spelled).accept (.refl _)
  have read := Lexeme.ofText_literal spelled breaks_nil
  rw [List.append_nil, Lexeme.ofText] at read
  have token := (reads_number spelled).ofText
  rw [nearest] at token
  rw [written]
  refine ⟨accepted, read, token, evaluate_eq_ok_iff.2 ?_⟩
  refine ⟨[.number n.toBinary64], n.toBinary64, postorderOf_eq_ok_iff.2 ?_, rfl, ?_⟩
  · exact ⟨n.text, _, by rw [written, accepted], token, rfl⟩
  · rw [settled.roundToPlaces_eq, normal]

theorem evaluate_toString_of_two_thirds :
    evaluate 3 "2/3" = .ok (.float (nearest false (667 / 1000))) ∧
      toString (Number.float (nearest false (667 / 1000))) = "0.667" ∧
      Source.accept "0.667".toList = .ok "0.667".toList ∧
      Lexeme.ofText "0.667".toList = [.literal "0.667".toList] ∧
      Token.ofText "0.667".toList = .ok [.number (nearest false (667 / 1000))] ∧
      evaluate 3 "0.667" = .ok (.float (nearest false (667 / 1000))) := by
  have evaluated : evaluate 3 "2/3" = .ok (.float (nearest false (667 / 1000))) := by
    decide +kernel
  have written : toString (Number.float (nearest false (667 / 1000))) = "0.667" := by
    decide +kernel
  have text : (Number.float (nearest false (667 / 1000))).text = "0.667".toList := by decide +kernel
  have position : nearest false (667 / 1000) = finite false ⟨0x3FE55810624DD2F2, by decide⟩ := by
    decide +kernel
  have value : (Number.float (nearest false (667 / 1000))).toBinary64.toRat? =
      some (Magnitude.toRat ⟨0x3FE55810624DD2F2, by decide⟩) := by
    rw [Number.toBinary64, position]
    rfl
  have printed := evaluate_toString evaluated value (Magnitude.toRat_nonneg _)
  rw [written, text] at printed
  exact ⟨evaluated, written, printed⟩

end Calculator
