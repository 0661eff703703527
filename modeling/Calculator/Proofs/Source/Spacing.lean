import Calculator.Source
import Calculator.Operator
import Calculator.Proofs.Outcome

/-!
# Accepted texts

Blanks put into a text anywhere are dropped again, so that a text of allowed characters with as many
closing parentheses as opening ones is accepted in every spacing.
-/

namespace Calculator.Source

open Outcome

/-- `source` is `text` with blanks put in anywhere. -/
inductive Spaced : (text source : List Char) → Prop where
  | nil : Spaced [] []
  | blank {c : Char} {text source : List Char} : c ∈ [' ', '\t', '\n', '\x0c', '\r'] →
      Spaced text source → Spaced text (c :: source)
  | keep (c : Char) {text source : List Char} : Spaced text source → Spaced (c :: text) (c :: source)

theorem Spaced.refl (text : List Char) : Spaced text text := by
  induction text with
  | nil => exact .nil
  | cons c rest ih => exact .keep c ih

theorem isBlank_iff {c : Char} :
    isBlank c = true ↔ c ∈ [' ', '\t', '\n', '\x0c', '\r'] := by
  simp [isBlank, or_assoc]

theorem isBlank_eq_false_of_isAllowed {c : Char} (allowed : isAllowed c = true) :
    isBlank c = false := by
  refine Bool.eq_false_iff.2 fun blank => ?_
  simp only [isBlank, Bool.or_eq_true, decide_eq_true_eq] at blank
  rcases blank with (((rfl | rfl) | rfl) | rfl) | rfl <;> exact absurd allowed (by decide)

/-- Dropping the blanks undoes the spacing of a text without blanks. -/
theorem Spaced.filter_eq {text source : List Char} (spaced : Spaced text source)
    (compact : ∀ c ∈ text, isBlank c = false) : source.filter (!isBlank ·) = text := by
  induction spaced with
  | nil => rfl
  | blank mem _ ih => simpa [isBlank_iff.2 mem] using ih compact
  | keep c _ ih =>
    have kept : isBlank c = false := compact c List.mem_cons_self
    simpa [kept] using ih fun d mem => compact d (List.mem_cons_of_mem c mem)

/-- What the checks ask of a text without blanks. -/
structure Sound (text : List Char) : Prop where
  nonempty : text ≠ []
  allowed : ∀ c ∈ text, isAllowed c = true
  balanced : text.count '(' = text.count ')'

theorem accept_eq_ok_iff {source text : List Char} :
    accept source = .ok text ↔ compact source = .ok text ∧ check text = .ok () := by
  unfold accept
  rw [bind_eq_ok_iff]
  constructor
  · rintro ⟨rest, compacted, checked⟩
    obtain ⟨⟨⟩, sound, kept⟩ := bind_eq_ok_iff.1 checked
    cases pure_eq_ok_iff.1 kept
    exact ⟨compacted, sound⟩
  · rintro ⟨compacted, sound⟩
    exact ⟨text, compacted, bind_eq_ok_iff.2 ⟨(), sound, rfl⟩⟩

/-- A sound text is accepted, however it is spaced. -/
theorem Sound.accept {text source : List Char} (sound : Sound text) (spaced : Spaced text source) :
    accept source = .ok text := by
  have compacted : source.filter (!isBlank ·) = text :=
    spaced.filter_eq fun c mem => isBlank_eq_false_of_isAllowed (sound.allowed c mem)
  have foreign : text.filter (!isAllowed ·) = [] := by
    simpa using sound.allowed
  refine accept_eq_ok_iff.2 ⟨?_, ?_⟩
  · simp [compact, compacted, sound.nonempty]
  · simp [check, foreign, sound.balanced]

/-- An operator between two sound texts. -/
theorem Sound.apply {text text' : List Char} (sound : Sound text) (sound' : Sound text')
    (op : Operator) : Sound (text ++ op.symbol :: text') where
  nonempty := by simp
  allowed := by
    intro c mem
    rcases List.mem_append.1 mem with mem | mem
    · exact sound.allowed c mem
    · rcases List.mem_cons.1 mem with rfl | mem
      · cases op <;> decide
      · exact sound'.allowed c mem
  balanced := by
    have opening : op.symbol ≠ '(' := by cases op <;> decide
    have closing : op.symbol ≠ ')' := by cases op <;> decide
    rw [List.count_append, List.count_append, List.count_cons_of_ne opening,
      List.count_cons_of_ne closing, sound.balanced, sound'.balanced]

theorem Sound.group {text : List Char} (sound : Sound text) :
    Sound ('(' :: text ++ [')']) where
  nonempty := by simp
  allowed := by
    intro c mem
    rcases List.mem_append.1 mem with mem | mem
    · rcases List.mem_cons.1 mem with rfl | mem
      · decide
      · exact sound.allowed c mem
    · rw [List.mem_singleton.1 mem]
      decide
  balanced := by
    have balanced := sound.balanced
    simp [balanced]

end Calculator.Source
