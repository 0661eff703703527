import Calculator.Proofs.Source.Spacing
import Calculator.Proofs.Token.Reading

/-!
# Points outside of literals

A checked text holds digits, points, operators and parentheses. Of these only points can belong to no
lexeme. A point belongs to the literal of the digits directly before it, unless these digits already
stand behind the point of that literal; every other point is passed over, so that `.5` is read as
`5` and `1.2.3` as `1.2` and `3`. A reader that goes from the left and knows only whether it stands
in a literal, and on which side of its point, tells all of them.
-/

namespace Calculator

open Outcome

/-- Where a reader of a text stands: outside of literals, in the digits of one, or past its point. -/
inductive Place where
  | outside
  | whole
  | fraction
deriving DecidableEq, Repr

namespace Place

/-- The place behind a character. -/
def next (place : Place) (c : Char) : Place :=
  if c.isDigit then if place = outside then whole else place
  else if c = '.' ∧ place = whole then fraction
  else outside

/-- The place behind a text. -/
def after (place : Place) (text : List Char) : Place := text.foldl next place

@[simp] theorem after_nil (place : Place) : place.after [] = place := rfl

@[simp] theorem after_cons (place : Place) (c : Char) (text : List Char) :
    place.after (c :: text) = (place.next c).after text := rfl

theorem after_append (place : Place) (text text' : List Char) :
    place.after (text ++ text') = (place.after text).after text' := List.foldl_append

/-- Digits do not lead out of a literal. -/
theorem after_digits {place : Place} (inside : place ≠ outside) {digits : List Char}
    (numeric : digits.all Char.isDigit = true) : place.after digits = place := by
  induction digits with
  | nil => rfl
  | cons c rest ih =>
    simp only [List.all_cons, Bool.and_eq_true] at numeric
    simp [next, numeric.1, inside, ih numeric.2]

theorem outside_after_digits {digits : List Char} (numeric : digits.all Char.isDigit = true)
    (nonempty : digits ≠ []) : outside.after digits = whole := by
  cases digits with
  | nil => exact absurd rfl nonempty
  | cons c rest =>
    simp only [List.all_cons, Bool.and_eq_true] at numeric
    have inside : whole.after rest = whole := after_digits (by decide) numeric.2
    simpa [next, numeric.1] using inside

end Place

open Place

/-- The text, read from a place on, without the points that belong to no literal. -/
def withoutStrayPoints : Place → List Char → List Char
  | _, [] => []
  | place, c :: rest =>
    if c = '.' ∧ place ≠ whole then withoutStrayPoints (place.next c) rest
    else c :: withoutStrayPoints (place.next c) rest

theorem withoutStrayPoints_digits_append {digits : List Char}
    (numeric : digits.all Char.isDigit = true) (place : Place) (rest : List Char) :
    withoutStrayPoints place (digits ++ rest) =
      digits ++ withoutStrayPoints (place.after digits) rest := by
  induction digits generalizing place with
  | nil => rfl
  | cons c digits ih =>
    simp only [List.all_cons, Bool.and_eq_true] at numeric
    have digit : c ≠ '.' := by
      rintro rfl
      exact absurd numeric.1 (by decide)
    simp [withoutStrayPoints, digit, ih numeric.2]

/-- A literal ends where the text does not continue it. -/
theorem withoutStrayPoints_eq_outside {place : Place} {text : List Char}
    (ends : ∀ c ∈ text.head?, c.isDigit = false ∧ (c = '.' → place ≠ whole)) :
    withoutStrayPoints place text = withoutStrayPoints outside text := by
  cases text with
  | nil => rfl
  | cons c rest =>
    obtain ⟨digit, point⟩ := ends c rfl
    by_cases isPoint : c = '.'
    · simp [withoutStrayPoints, next, isPoint, point isPoint]
    · simp [withoutStrayPoints, next, digit, isPoint]

theorem isDigit_head_dropWhile (text : List Char) :
    ∀ c ∈ (text.dropWhile Char.isDigit).head?, c.isDigit = false := by
  intro c mem
  have stop := List.head?_dropWhile_not Char.isDigit text
  rw [mem] at stop
  exact stop

theorem all_isDigit_takeWhile (text : List Char) :
    (text.takeWhile Char.isDigit).all Char.isDigit = true := List.all_takeWhile

/-- Behind the digits of a literal its fraction is kept, and what follows is read from outside. -/
theorem withoutStrayPoints_splitFraction {text : List Char}
    (ends : ∀ c ∈ text.head?, c.isDigit = false) :
    withoutStrayPoints whole text =
      (splitFraction text).1 ++ withoutStrayPoints outside (splitFraction text).2 := by
  unfold splitFraction
  split
  · rename_i rest
    have split : withoutStrayPoints fraction rest = rest.takeWhile Char.isDigit ++
        withoutStrayPoints fraction (rest.dropWhile Char.isDigit) := by
      have digits := all_isDigit_takeWhile rest
      conv_lhs => rw [← List.takeWhile_append_dropWhile (p := Char.isDigit) (l := rest)]
      rw [withoutStrayPoints_digits_append digits, after_digits (by decide) digits]
    have outside : withoutStrayPoints fraction (rest.dropWhile Char.isDigit) =
        withoutStrayPoints outside (rest.dropWhile Char.isDigit) :=
      withoutStrayPoints_eq_outside fun c mem =>
        ⟨isDigit_head_dropWhile rest c mem, fun _ => by decide⟩
    have past : whole.next '.' = fraction := by decide
    simp [withoutStrayPoints, past, split, outside]
  · rename_i other
    refine withoutStrayPoints_eq_outside fun c mem => ⟨ends c mem, ?_⟩
    rintro rfl
    cases text with
    | nil => cases mem
    | cons c rest =>
      cases mem
      exact absurd rfl (other rest)

/-- A literal is kept whole, and what follows it is read from outside. -/
theorem withoutStrayPoints_splitLiteral {c : Char} (digit : c.isDigit = true) (rest : List Char) :
    withoutStrayPoints outside (c :: rest) =
      (splitLiteral (c :: rest)).1 ++
        withoutStrayPoints outside (splitLiteral (c :: rest)).2 := by
  have digits := all_isDigit_takeWhile (c :: rest)
  have nonempty : (c :: rest).takeWhile Char.isDigit ≠ [] := by simp [digit]
  conv_lhs => rw [← List.takeWhile_append_dropWhile (p := Char.isDigit) (l := c :: rest)]
  rw [withoutStrayPoints_digits_append digits, outside_after_digits digits nonempty,
    withoutStrayPoints_splitFraction (isDigit_head_dropWhile _), splitLiteral, List.append_assoc]

namespace Lexeme

/-- The lexemes one after the other. -/
def written (lexemes : List Lexeme) : List Char := lexemes.flatMap text

/-- An allowed character that is no digit and no point makes a lexeme of itself. -/
theorem written_ofChar? {c : Char} (allowed : Source.isAllowed c = true)
    (digit : c.isDigit = false) (point : c ≠ '.') : written (ofChar? c).toList = [c] := by
  simp only [Source.isAllowed, digit, Bool.false_or, List.contains_iff_mem, List.mem_cons,
    List.not_mem_nil, or_false] at allowed
  rcases allowed with rfl | rfl | rfl | rfl | rfl | rfl | rfl | rfl
  · exact absurd rfl point
  all_goals rfl

/-- The lexemes of a text of allowed characters leave out its stray points and nothing else. -/
theorem written_ofText {text : List Char} (allowed : ∀ c ∈ text, Source.isAllowed c = true) :
    written (ofText text) = withoutStrayPoints outside text := by
  fun_induction ofText text with
  | case1 => rfl
  | case2 c rest digit _ ih =>
    have later : ∀ d ∈ (splitLiteral (c :: rest)).2, Source.isAllowed d = true :=
      fun d mem => allowed d (by
        rw [← append_splitLiteral (c :: rest)]
        exact List.mem_append_right _ mem)
    rw [withoutStrayPoints_splitLiteral digit, ← ih later]
    rfl
  | case3 c rest digit ih =>
    have first := allowed c List.mem_cons_self
    have later := ih fun d mem => allowed d (List.mem_cons_of_mem c mem)
    have notDigit : c.isDigit = false := Bool.eq_false_iff.2 digit
    rw [written, List.flatMap_append]
    by_cases point : c = '.'
    · subst point
      exact later
    · have behind : outside.next c = outside := by simp [next, notDigit, point]
      simp only [withoutStrayPoints, point, false_and, if_false, behind, ← later]
      exact congrArg (· ++ _) (written_ofChar? first notDigit point)

/-- The token that a lexeme makes: a literal makes the number nearest to the decimal it spells. -/
inductive Makes : Lexeme → Token → Prop where
  | literal {q : Rat} {text : List Char} : Spells q text →
      Makes (literal text) (.number (.nearest false q))
  | operator (op : Operator) : Makes (operator op) (.operator op)
  | opening : Makes opening .opening
  | closing : Makes closing .closing

/-- The front of a text that starts with a digit spells a decimal. -/
theorem exists_spells_splitLiteral {c : Char} (digit : c.isDigit = true) (rest : List Char) :
    ∃ q, Spells q (splitLiteral (c :: rest)).1 := by
  have digits := all_isDigit_takeWhile (c :: rest)
  have nonempty : (c :: rest).takeWhile Char.isDigit ≠ [] := by simp [digit]
  simp only [splitLiteral]
  unfold splitFraction
  split
  · rename_i fraction _
    exact ⟨_, .point nonempty digits (all_isDigit_takeWhile fraction)⟩
  · rw [List.append_nil]
    exact ⟨_, .whole nonempty digits⟩

theorem exists_spells_of_mem {text literal : List Char} (mem : .literal literal ∈ ofText text) :
    ∃ q, Spells q literal := by
  fun_induction ofText text with
  | case1 => cases mem
  | case2 c rest digit _ ih =>
    rcases List.mem_cons.1 mem with same | later
    · cases same
      exact exists_spells_splitLiteral digit rest
    · exact ih later
  | case3 c rest digit ih =>
    rcases List.mem_append.1 mem with first | later
    · unfold ofChar? at first
      split at first
      · cases List.mem_singleton.1 first
      · cases List.mem_singleton.1 first
      · obtain ⟨op, -, same⟩ := Option.map_eq_some_iff.1 (Option.mem_toList.1 first)
        cases same
    · exact ih later

/-- No lexeme of a text fails to make its token. -/
theorem exists_makes_of_mem {text : List Char} {lexeme : Lexeme} (mem : lexeme ∈ ofText text) :
    ∃ t, lexeme.token = .ok t ∧ Makes lexeme t := by
  cases lexeme with
  | literal literal =>
    obtain ⟨q, spelled⟩ := exists_spells_of_mem mem
    obtain ⟨d, read, rfl⟩ := spelled.ofText?
    exact ⟨_, by rw [token, read], .literal spelled⟩
  | operator op => exact ⟨_, rfl, .operator op⟩
  | opening => exact ⟨_, rfl, .opening⟩
  | closing => exact ⟨_, rfl, .closing⟩

end Lexeme

/-- Every text is split into tokens, one for each lexeme. -/
theorem exists_tokens (text : List Char) :
    ∃ ts, Token.ofText text = .ok ts ∧ List.Forall₂ Lexeme.Makes (Lexeme.ofText text) ts :=
  exists_mapM_eq_ok fun _ => Lexeme.exists_makes_of_mem

theorem length_withoutStrayPoints_le (place : Place) (text : List Char) :
    (withoutStrayPoints place text).length ≤ text.length := by
  induction text generalizing place with
  | nil => exact Nat.le_refl _
  | cons c rest ih =>
    have later := ih (place.next c)
    simp only [withoutStrayPoints]
    split
    · exact Nat.le_succ_of_le later
    · exact Nat.succ_le_succ later

/-- Nothing is left out exactly if a reader comes to every point in the digits before a point. -/
theorem withoutStrayPoints_eq_self_iff {place : Place} {text : List Char} :
    withoutStrayPoints place text = text ↔
      ∀ front back, text = front ++ '.' :: back → place.after front = whole := by
  induction text generalizing place with
  | nil => simp [withoutStrayPoints]
  | cons c rest ih =>
    simp only [withoutStrayPoints]
    split
    · rename_i stray
      refine iff_of_false (fun kept => ?_) fun attached => stray.2 (attached [] rest (by rw [stray.1]; rfl))
      have shorter := length_withoutStrayPoints_le (place.next c) rest
      rw [kept, List.length_cons] at shorter
      omega
    · rename_i kept
      rw [List.cons.injEq, and_iff_right rfl, ih]
      constructor
      · intro attached front back split
        cases front with
        | nil =>
          obtain ⟨rfl, -⟩ := List.cons.inj split
          exact Classical.not_not.1 fun other => kept ⟨rfl, other⟩
        | cons d front =>
          obtain ⟨rfl, later⟩ := List.cons.inj split
          exact attached front back later
      · rintro attached front back rfl
        exact attached (c :: front) back rfl

/-- Every point of the text follows digits, and no other point stands directly before these. -/
def PointsAttached (text : List Char) : Prop :=
  ∀ front back, text = front ++ '.' :: back → ∃ earlier digits, front = earlier ++ digits ∧
    digits ≠ [] ∧ digits.all Char.isDigit = true ∧
      ∀ c ∈ earlier.getLast?, c.isDigit = false ∧ c ≠ '.'

namespace Place

theorem next_ne_whole {place : Place} {c : Char} (digit : c.isDigit = false) :
    place.next c ≠ whole := by
  unfold next
  rw [digit, if_neg Bool.false_ne_true]
  split <;> decide

/-- Behind a character that is no digit and no point a reader is outside of literals. -/
theorem outside_after_of_ends {text : List Char}
    (ends : ∀ c ∈ text.getLast?, c.isDigit = false ∧ c ≠ '.') : outside.after text = outside := by
  rcases List.eq_nil_or_concat text with rfl | ⟨front, c, rfl⟩
  · rfl
  · obtain ⟨digit, point⟩ := ends c (by simp)
    rw [List.concat_eq_append, after_append]
    simp [next, digit, point]

end Place

/-- A text is the part up to its last character that is no digit, and digits. -/
theorem exists_digits_at_end (text : List Char) :
    ∃ earlier digits, text = earlier ++ digits ∧ digits.all Char.isDigit = true ∧
      ∀ c ∈ earlier.getLast?, c.isDigit = false := by
  refine ⟨(text.reverse.dropWhile Char.isDigit).reverse,
    (text.reverse.takeWhile Char.isDigit).reverse, ?_, ?_, ?_⟩
  · rw [← List.reverse_append, List.takeWhile_append_dropWhile, List.reverse_reverse]
  · rw [List.all_reverse]
    exact all_isDigit_takeWhile _
  · rw [List.getLast?_reverse]
    exact isDigit_head_dropWhile _

theorem pointsAttached_iff {text : List Char} :
    PointsAttached text ↔
      ∀ front back, text = front ++ '.' :: back → outside.after front = whole := by
  constructor
  · intro attached front back split
    obtain ⟨earlier, digits, rfl, nonempty, numeric, ends⟩ := attached front back split
    rw [after_append, outside_after_of_ends ends, outside_after_digits numeric nonempty]
  · intro attached front back split
    have behind := attached front back split
    obtain ⟨earlier, digits, rfl, allDigits, ends⟩ := exists_digits_at_end front
    refine ⟨earlier, digits, rfl, ?_, allDigits, fun c mem => ⟨ends c mem, ?_⟩⟩
    · rintro rfl
      rw [List.append_nil] at behind
      rcases List.eq_nil_or_concat earlier with rfl | ⟨front, c, rfl⟩
      · cases behind
      · rw [List.concat_eq_append, after_append] at behind
        exact next_ne_whole (ends c (by simp)) behind
    · -- A point before the digits is itself the point of a literal, which they belong to.
      rintro rfl
      obtain ⟨front, rfl⟩ := List.getLast?_eq_some_iff.1 mem
      have before := attached front (digits ++ '.' :: back) (by rw [split]; simp)
      have past : whole.next '.' = fraction := by decide
      rw [after_append, after_append, before, after_cons, after_nil, past,
        after_digits (by decide) allDigits] at behind
      cases behind

theorem isAllowed_of_check {text : List Char} (checked : Source.check text = .ok ()) :
    ∀ c ∈ text, Source.isAllowed c = true := by
  dsimp only [Source.check] at checked
  split at checked
  · cases checked
  · rename_i foreign
    simpa using foreign

/-- **Stray points.** Every lexeme of a checked text makes a token, and the lexemes in their order are
the text without its stray points. They are the whole text exactly if its points are attached. -/
theorem written_of_checked {text : List Char} (checked : Source.check text = .ok ()) :
    (∃ ts, Token.ofText text = .ok ts ∧
        List.Forall₂ Lexeme.Makes (Lexeme.ofText text) ts) ∧
      Lexeme.written (Lexeme.ofText text) = withoutStrayPoints outside text ∧
      (Lexeme.written (Lexeme.ofText text) = text ↔ PointsAttached text) := by
  have written := Lexeme.written_ofText (isAllowed_of_check checked)
  refine ⟨exists_tokens text, written, ?_⟩
  rw [written, withoutStrayPoints_eq_self_iff, pointsAttached_iff]

/-- In `(1.2.3+.5)` the second point and the last one are stray. -/
theorem written_of_checked_sum :
    Source.check ['(', '1', '.', '2', '.', '3', '+', '.', '5', ')'] = .ok () ∧
      Lexeme.written (Lexeme.ofText ['(', '1', '.', '2', '.', '3', '+', '.', '5', ')']) =
        ['(', '1', '.', '2', '3', '+', '5', ')'] ∧
      ¬ PointsAttached ['(', '1', '.', '2', '.', '3', '+', '.', '5', ')'] := by
  have checked : Source.check ['(', '1', '.', '2', '.', '3', '+', '.', '5', ')'] = .ok () := rfl
  obtain ⟨-, written, attached⟩ := written_of_checked checked
  have kept : withoutStrayPoints outside ['(', '1', '.', '2', '.', '3', '+', '.', '5', ')'] =
      ['(', '1', '.', '2', '3', '+', '5', ')'] := by decide +kernel
  rw [kept] at written
  refine ⟨checked, written, mt attached.2 ?_⟩
  rw [written]
  decide

/-- The point of `.5` belongs to no lexeme, and the text is read as `5`. -/
theorem tokens_of_leading_point :
    Source.check ['.', '5'] = .ok () ∧
      Lexeme.written (Lexeme.ofText ['.', '5']) ≠ ['.', '5'] ∧
      Token.ofText ['.', '5'] = .ok [.number (.ofInt 5)] := by
  decide +kernel

end Calculator
