import Mathlib.Data.List.TakeWhile
import Calculator.Text

/-!
# How a sequence is read as lines

The lines of a sequence are said by rules for what it starts with: a line that ends in a line feed, with a
carriage return before it or not, or a last line without an end. The rules read every sequence, in one
way only, and the lines that are computed are those of the rules. A text in which each line is ended in
any of these ways, and in which there are lines of white space between them, is read as the same lines
but for white space.
-/

namespace Calculator.Text

variable {α : Type} {lineFeed carriageReturn : α}

/-- A sequence is read as lines. A line feed ends a line, a carriage return directly before it belongs to
the end, and what follows the last line feed is a line if it is not empty. -/
inductive Lined (lineFeed carriageReturn : α) : List α → List (List α) → Prop where
  | nil : Lined lineFeed carriageReturn [] []
  | last {line : List α} : line ≠ [] → lineFeed ∉ line → Lined lineFeed carriageReturn line [line]
  | returned {line rest : List α} {lines : List (List α)} : lineFeed ∉ line →
      Lined lineFeed carriageReturn rest lines →
      Lined lineFeed carriageReturn (line ++ carriageReturn :: lineFeed :: rest) (line :: lines)
  | ended {line rest : List α} {lines : List (List α)} : lineFeed ∉ line →
      line.getLast? ≠ some carriageReturn → Lined lineFeed carriageReturn rest lines →
      Lined lineFeed carriageReturn (line ++ lineFeed :: rest) (line :: lines)

/-- Every sequence is read as some lines. -/
theorem exists_lined (text : List α) : ∃ lines, Lined lineFeed carriageReturn text lines := by
  by_cases mem : lineFeed ∈ text
  · obtain ⟨line, rest, split, absent⟩ := List.eq_append_cons_of_mem mem
    have shorter : rest.length < text.length := by
      rw [split, List.length_append, List.length_cons]
      omega
    obtain ⟨lines, lined⟩ := exists_lined rest
    rw [split]
    by_cases returned : line.getLast? = some carriageReturn
    · obtain ⟨before, rfl⟩ := List.getLast?_eq_some_iff.1 returned
      rw [List.append_assoc]
      exact ⟨_, .returned (fun mem => absent (List.mem_append_left _ mem)) lined⟩
    · exact ⟨_, .ended absent returned lined⟩
  · by_cases empty : text = []
    · rw [empty]
      exact ⟨_, .nil⟩
    · exact ⟨_, .last empty mem⟩
termination_by text.length

section

variable [DecidableEq α] {line rest text : List α} {ls : List (List α)}

theorem dropReturn_append : dropReturn carriageReturn (line ++ [carriageReturn]) = line := by
  simp [dropReturn]

theorem dropReturn_eq_self (other : line.getLast? ≠ some carriageReturn) :
    dropReturn carriageReturn line = line :=
  if_neg other

theorem forall_ne_lineFeed (absent : lineFeed ∉ line) :
    ∀ a ∈ line, decide (a ≠ lineFeed) = true := by
  intro a mem
  exact decide_eq_true fun same => absent (same ▸ mem)

theorem lines_last (more : line ≠ []) (absent : lineFeed ∉ line) :
    lines lineFeed carriageReturn line = [line] := by
  have others := forall_ne_lineFeed absent
  rw [lines]
  · simp only []
    split
    · rw [List.takeWhile_eq_self_iff.2 others]
    · rename_i rest found
      rw [List.dropWhile_eq_nil_iff.2 others] at found
      cases found
  · exact more

/-- The first line feed ends the first line. -/
theorem lines_append (absent : lineFeed ∉ line) :
    lines lineFeed carriageReturn (line ++ lineFeed :: rest) =
      dropReturn carriageReturn line :: lines lineFeed carriageReturn rest := by
  have others := forall_ne_lineFeed absent
  have taken : (line ++ lineFeed :: rest).takeWhile (fun a => decide (a ≠ lineFeed)) = line := by
    rw [List.takeWhile_append_of_pos others]
    simp
  have left : (line ++ lineFeed :: rest).dropWhile (fun a => decide (a ≠ lineFeed)) =
      lineFeed :: rest := by
    rw [List.dropWhile_append_of_pos others]
    simp
  rw [lines]
  · simp only []
    split
    · rename_i found
      rw [left] at found
      cases found
    · rename_i found
      rw [left] at found
      cases found
      rw [taken]
  · simp

/-- A sequence is read in one way only. -/
theorem Lined.lines_eq (distinct : carriageReturn ≠ lineFeed)
    (lined : Lined lineFeed carriageReturn text ls) :
    lines lineFeed carriageReturn text = ls := by
  induction lined with
  | nil => rw [lines]
  | last more absent => exact lines_last more absent
  | @returned line rest _ absent _ ih =>
    have absent' : lineFeed ∉ line ++ [carriageReturn] := by
      simp [absent, distinct.symm]
    have split : lines lineFeed carriageReturn (line ++ [carriageReturn] ++ lineFeed :: rest) =
        dropReturn carriageReturn (line ++ [carriageReturn]) :: lines lineFeed carriageReturn rest :=
      lines_append absent'
    rw [List.append_assoc, dropReturn_append, ih] at split
    exact split
  | ended absent other _ ih => rw [lines_append absent, dropReturn_eq_self other, ih]

theorem lined_lines (distinct : carriageReturn ≠ lineFeed) (text : List α) :
    Lined lineFeed carriageReturn text (lines lineFeed carriageReturn text) := by
  obtain ⟨ls, lined⟩ : ∃ ls, Lined lineFeed carriageReturn text ls := exists_lined text
  rwa [lined.lines_eq distinct]

end

/-- How a line may end before the rest of a text. -/
inductive Ending : (ending rest : List Char) → Prop where
  | lineFeed (rest : List Char) : Ending ['\n'] rest
  | returned (rest : List Char) : Ending ['\r', '\n'] rest
  | missing : Ending [] []

/-- A text has these lines in this order. Each may end in any way, and there may be lines of nothing but
white space anywhere. -/
inductive Layout : List (List Char) → List Char → Prop where
  | nil : Layout [] []
  | line {line ending rest : List Char} {ls : List (List Char)} : '\n' ∉ line →
      Ending ending rest → Layout ls rest → Layout (line :: ls) (line ++ ending ++ rest)
  | blank {line ending rest : List Char} {ls : List (List Char)} : '\n' ∉ line →
      (∀ c ∈ line, isWhiteSpace c = true) → Ending ending rest → Layout ls rest →
      Layout ls (line ++ ending ++ rest)

/-- The line has a character that is not white space. -/
def hasInk (line : List Char) : Bool := line.any (!isWhiteSpace ·)

theorem hasInk_append_return (line : List Char) : hasInk (line ++ ['\r']) = hasInk line := by
  have white : isWhiteSpace '\r' = true := by decide
  simp [hasInk, white]

theorem hasInk_eq_false {line : List Char} (white : ∀ c ∈ line, isWhiteSpace c = true) :
    hasInk line = false := by
  simpa [hasInk] using white

theorem eq_dropReturn_or (line : List Char) :
    line = dropReturn '\r' line ∨ line = dropReturn '\r' line ++ ['\r'] := by
  by_cases returned : line.getLast? = some '\r'
  · obtain ⟨before, rfl⟩ := List.getLast?_eq_some_iff.1 returned
    exact .inr (by rw [dropReturn_append])
  · exact .inl (dropReturn_eq_self returned).symm

/-- Where a line is written, this line is read, but perhaps for a carriage return at its end, and an empty
last line is not read at all. -/
theorem lines_of_ending {line ending rest : List Char} (absent : '\n' ∉ line)
    (ends : Ending ending rest) :
    (∃ read, (line = read ∨ line = read ++ ['\r']) ∧
      lines '\n' '\r' (line ++ ending ++ rest) = read :: lines '\n' '\r' rest) ∨
    (line = [] ∧ lines '\n' '\r' (line ++ ending ++ rest) = lines '\n' '\r' rest) := by
  cases ends with
  | lineFeed =>
    rw [List.append_assoc]
    exact .inl ⟨_, eq_dropReturn_or line, lines_append absent⟩
  | returned =>
    have absent' : '\n' ∉ line ++ ['\r'] := by simpa using absent
    have split : lines '\n' '\r' (line ++ ['\r'] ++ '\n' :: rest) =
        dropReturn '\r' (line ++ ['\r']) :: lines '\n' '\r' rest := lines_append absent'
    rw [dropReturn_append, List.append_assoc] at split
    rw [List.append_assoc]
    exact .inl ⟨line, .inl rfl, split⟩
  | missing =>
    have ended : lines '\n' '\r' [] = [] := by rw [lines]
    simp only [List.append_nil, ended]
    by_cases empty : line = []
    · exact .inr ⟨empty, by rw [empty, ended]⟩
    · exact .inl ⟨line, .inl rfl, lines_last empty absent⟩

section

variable {β : Type} {f : List Char → β} (same : ∀ line, f (line ++ ['\r']) = f line)
include same

/-- What does not see a carriage return at the end of a line cannot tell how a line ends. -/
theorem map_lines_of_ending {line ending rest : List Char} (absent : '\n' ∉ line)
    (ends : Ending ending rest) :
    ((lines '\n' '\r' (line ++ ending ++ rest)).filter hasInk).map f =
      ([line].filter hasInk).map f ++ ((lines '\n' '\r' rest).filter hasInk).map f := by
  rw [← List.map_append, ← List.filter_append, List.singleton_append]
  rcases lines_of_ending absent ends with ⟨read, rfl | rfl, whole⟩ | ⟨rfl, whole⟩
  · rw [whole]
  · rw [whole]
    by_cases ink : hasInk read = true
    · simp [hasInk_append_return, ink, same]
    · simp [hasInk_append_return, ink]
  · rw [whole]
    rfl

/-- It cannot tell how a text is laid out either. -/
theorem Layout.map_lines {ls : List (List Char)} {text : List Char} (layout : Layout ls text) :
    ((lines '\n' '\r' text).filter hasInk).map f = (ls.filter hasInk).map f := by
  induction layout with
  | nil => rw [lines]
  | line absent ends _ ih =>
    rw [map_lines_of_ending same absent ends, ih, ← List.map_append, ← List.filter_append,
      List.singleton_append]
  | blank absent white ends _ ih =>
    rw [map_lines_of_ending same absent ends, ih]
    simp [hasInk_eq_false white]

end

end Calculator.Text
