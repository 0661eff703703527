import Calculator.Proofs.CommandLine.Batch
import Calculator.Proofs.Text.Encoding

/-!
# Expressions from an input stream

An input is decoded line by line, but it is spoiled exactly if it is no text as a whole, and then nothing
of it is evaluated. Otherwise its expressions are the lines of its text that are more than white space,
and a run reports these. How a line ends is not seen in the report: a carriage return at the end of an
expression is a blank in its evaluation, and white space that is not printed with its name.
-/

namespace Calculator

namespace Source

/-- A blank at the end of a text makes no difference. -/
theorem accept_append_blank (c : Char) (blank : isBlank c = true) (text : List Char) :
    accept (text ++ [c]) = accept text := by
  simp [accept, compact, blank]

end Source

namespace Text

/-- White space at the end of a text is removed. -/
theorem trim_append_white (c : Char) (white : isWhiteSpace c = true) (text : List Char) :
    trim (text ++ [c]) = trim text := by
  unfold trim
  rw [List.dropWhile_append]
  split
  · rename_i empty
    rw [List.isEmpty_iff.1 empty]
    simp [white]
  · rw [List.reverse_append, List.reverse_singleton, List.singleton_append, List.dropWhile_cons,
      if_pos white]

end Text

namespace CommandLine

open Text (encode hasInk Lined Layout)

theorem decode?_eq_some_iff {bytes : List UInt8} {text : String} :
    decode? bytes = some text ↔ text.toUTF8 = ⟨bytes.toArray⟩ := by
  unfold decode? String.fromUTF8?
  constructor
  · intro decoded
    split at decoded
    · cases decoded
      rfl
    · cases decoded
  · intro whole
    have valid : ByteArray.IsValidUTF8 ⟨bytes.toArray⟩ := whole ▸ text.isValidUTF8
    rw [dif_pos valid]
    exact congrArg some (String.toByteArray_inj.1 whole.symm)

theorem decode?_encode (text : List Char) : decode? (encode text) = some (String.ofList text) := by
  rw [decode?_eq_some_iff, Text.toUTF8_eq_iff, String.toList_ofList]

theorem mapM_decode?_encode (ls : List (List Char)) :
    (ls.map encode).mapM decode? = some (ls.map String.ofList) := by
  induction ls with
  | nil => rfl
  | cons line rest ih => simp [decode?_encode, ih]

theorem exists_encode_of_mapM {ls : List (List UInt8)} {texts : List String}
    (decoded : ls.mapM decode? = some texts) : ∀ line ∈ ls, ∃ text, line = encode text := by
  induction ls generalizing texts with
  | nil => nofun
  | cons line rest ih =>
    simp only [List.mapM_cons, Option.bind_eq_bind, Option.bind_eq_some_iff] at decoded
    obtain ⟨text, first, texts', later, -⟩ := decoded
    intro line' mem
    rcases List.mem_cons.1 mem with rfl | mem
    · exact ⟨text.toList, Text.toUTF8_eq_iff.1 (decode?_eq_some_iff.1 first)⟩
    · exact ih later line' mem

theorem isBlankLine_ofList (line : List Char) :
    (!isBlankLine (String.ofList line)) = hasInk line := by
  rw [isBlankLine, String.toList_ofList, List.not_all_eq_any_not]
  rfl

/-- The expressions of the bytes of a text are those lines of the text that are more than white space. -/
theorem expressionsOf?_encode {text : List Char} {ls : List (List Char)}
    (lined : Lined '\n' '\r' text ls) :
    expressionsOf? (encode text) = some ((ls.filter hasInk).map String.ofList) := by
  have read : linesOf (encode text) = ls.map encode := lined.encode.lines_eq (by decide)
  rw [expressionsOf?, read, mapM_decode?_encode, Option.map_some, List.filter_map]
  simp only [Function.comp_def, isBlankLine_ofList]

/-- An input is spoiled exactly if it is not the bytes of a text. -/
theorem expressionsOf?_eq_none_iff {input : List UInt8} :
    expressionsOf? input = none ↔ ¬ ByteArray.IsValidUTF8 ⟨input.toArray⟩ := by
  rw [Text.isValidUTF8_iff]
  constructor
  · rintro spoiled ⟨text, rfl⟩
    obtain ⟨ls, lined⟩ := Text.exists_lined text
    rw [expressionsOf?_encode lined] at spoiled
    cases spoiled
  · intro other
    refine Option.eq_none_iff_forall_ne_some.2 fun sources read => other ?_
    obtain ⟨texts, decoded, -⟩ := Option.map_eq_some_iff.1 read
    exact (Text.lined_lines (by decide) input).exists_encode (exists_encode_of_mapM decoded)

/-- A carriage return at the end of an expression is not seen in its entry. -/
theorem Entry.ofExpression_return (options : Options) (single : Bool) (line : List Char) :
    Entry.ofExpression options single (String.ofList (line ++ ['\r'])) =
      Entry.ofExpression options single (String.ofList line) := by
  have accepted := Source.accept_append_blank '\r' rfl line
  have converted : postorderOf (String.ofList (line ++ ['\r'])) = postorderOf (String.ofList line) := by
    simp only [postorderOf, String.toList_ofList, accepted]
  have evaluated : ∀ places,
      evaluate places (String.ofList (line ++ ['\r'])) = evaluate places (String.ofList line) := by
    simp only [evaluate, converted, implies_true]
  have trimmed : Text.trimString (String.ofList (line ++ ['\r'])) =
      Text.trimString (String.ofList line) := by
    simp only [Text.trimString, String.toList_ofList,
      Text.trim_append_white '\r' (by decide)]
  simp only [Entry.ofExpression, evaluated, resultLine, failureLine, trimmed, postorderNote,
    converted]

section

variable {collect : Collector} {options : Options} {input : List UInt8} {sources : List String}

theorem run_of_spoiled (spoiled : expressionsOf? input = none) :
    run collect ⟨options, []⟩ input = .failed SourceFault.spoiled.message := by
  have refused : Arguments.sources ⟨options, []⟩ input = .error .spoiled := by
    simp only [Arguments.sources, List.isEmpty_nil, if_true, spoiled]
    rfl
  rw [run, refused]

theorem sources_of_read (read : expressionsOf? input = some sources) :
    Arguments.sources ⟨options, []⟩ input =
      if sources.isEmpty then .error .missing else .ok sources := by
  simp only [Arguments.sources, List.isEmpty_nil, if_true, read]
  rfl

/-- A run reports the expressions of its input, if there is one. -/
theorem run_of_read (read : expressionsOf? input = some sources) :
    run collect ⟨options, []⟩ input =
      if sources = [] then .failed SourceFault.missing.message
      else report collect options sources := by
  rw [run, sources_of_read read]
  cases sources with
  | nil => rw [if_pos List.isEmpty_nil, if_pos rfl]
  | cons source rest =>
    rw [if_neg (Bool.eq_false_iff.1 List.isEmpty_cons), if_neg (List.cons_ne_nil _ _)]

/-- A report does not end at an error of its own: before its summary stands a failure. -/
theorem report_ne_failed (ordered : collect.Ordered) (message : String) :
    report collect options sources ≠ .failed message := by
  intro same
  have shows := report_shows ordered options sources
  rw [same] at shows
  have positive : 0 < count (entries options sources) := by
    by_contra zero
    have ended := shows.exitCode
    rw [if_neg zero] at ended
    cases ended
  have lines := congrArg List.length shows.errors
  rw [if_pos positive, List.length_append] at lines
  have failed := List.length_pos_iff.2 (failures_ne_nil_of_count positive)
  simp only [Outcome.failed, List.length_singleton] at lines
  omega

/-- A run fails over its input exactly if the input is spoiled. -/
theorem run_eq_failed_iff (ordered : collect.Ordered) :
    run collect ⟨options, []⟩ input = .failed SourceFault.spoiled.message ↔
      expressionsOf? input = none := by
  refine ⟨fun failed => ?_, run_of_spoiled⟩
  cases read : expressionsOf? input with
  | none => rfl
  | some sources =>
    rw [run_of_read read] at failed
    split at failed
    · exact absurd failed (by decide)
    · exact absurd failed (report_ne_failed ordered _)

end

theorem report_congr {collect : Collector} (ordered : collect.Ordered) {options : Options}
    {xs ys : List String} (same : ∀ single, xs.map (Entry.ofExpression options single) =
      ys.map (Entry.ofExpression options single)) :
    report collect options xs = report collect options ys := by
  have length : xs.length = ys.length := by simpa using congrArg List.length (same true)
  have whole : entries options xs = entries options ys := by rw [entries, entries, length, same]
  have shows := report_shows ordered options xs
  rw [whole] at shows
  exact shows.unique (report_shows ordered options ys)

/-- Runs over two layouts of the same lines have the same outcome. -/
theorem run_of_layout {collect : Collector} (ordered : collect.Ordered) {ls : List (List Char)}
    {text text' : List Char} (layout : Layout ls text) (layout' : Layout ls text')
    (options : Options) :
    run collect ⟨options, []⟩ (encode text) = run collect ⟨options, []⟩ (encode text') := by
  obtain ⟨xs, lined⟩ : ∃ xs, Lined '\n' '\r' text xs := Text.exists_lined text
  obtain ⟨ys, lined'⟩ : ∃ ys, Lined '\n' '\r' text' ys := Text.exists_lined text'
  have same : ∀ single,
      ((xs.filter hasInk).map String.ofList).map (Entry.ofExpression options single) =
        ((ys.filter hasInk).map String.ofList).map (Entry.ofExpression options single) := by
    intro single
    have unseen := Entry.ofExpression_return options single
    rw [List.map_map, List.map_map, ← lined.lines_eq (by decide), ← lined'.lines_eq (by decide)]
    exact (layout.map_lines unseen).trans (layout'.map_lines unseen).symm
  have length : ((xs.filter hasInk).map String.ofList).length =
      ((ys.filter hasInk).map String.ofList).length := by
    simpa using congrArg List.length (same true)
  have empty : (xs.filter hasInk).map String.ofList = [] ↔ (ys.filter hasInk).map String.ofList = [] := by
    rw [← List.length_eq_zero_iff, length, List.length_eq_zero_iff]
  rw [run_of_read (expressionsOf?_encode lined), run_of_read (expressionsOf?_encode lined')]
  simp only [empty, report_congr ordered same]

/-- **Input.** A run without expressions among its arguments reads its input. The input is spoiled exactly if
it is not valid UTF-8 as a whole, and exactly then the run fails over it, without any output. Otherwise
the expressions are, in order, the lines of the text that the input encodes, as far as they are more than
white space, and the run reports these, or that there is none. Two inputs that have the same lines,
whatever line ends and lines of white space they have, have the same outcome. -/
theorem run_input {collect : Collector} (ordered : collect.Ordered) (options : Options)
    (input : List UInt8) :
    (expressionsOf? input = none ↔ ¬ ByteArray.IsValidUTF8 ⟨input.toArray⟩) ∧
    (run collect ⟨options, []⟩ input = ⟨1, [],
        ["Error: Failed to read expression from input: stream did not contain valid UTF-8"]⟩ ↔
      ¬ ByteArray.IsValidUTF8 ⟨input.toArray⟩) ∧
    (∀ text : String, text.toUTF8 = ⟨input.toArray⟩ → ∃ ls sources,
      Lined '\n' '\r' text.toList ls ∧
      sources = (ls.filter fun line => line.any (!Text.isWhiteSpace ·)).map String.ofList ∧
      expressionsOf? input = some sources ∧
      run collect ⟨options, []⟩ input =
        if sources = [] then ⟨1, [], ["Error: No expressions given"]⟩
        else report collect options sources) ∧
    ∀ (input' : List UInt8) (text text' : String) (ls : List (List Char)),
      text.toUTF8 = ⟨input.toArray⟩ → text'.toUTF8 = ⟨input'.toArray⟩ →
      Layout ls text.toList → Layout ls text'.toList →
      run collect ⟨options, []⟩ input = run collect ⟨options, []⟩ input' := by
  refine ⟨expressionsOf?_eq_none_iff, ?_, fun text whole => ?_, ?_⟩
  · exact (run_eq_failed_iff ordered).trans expressionsOf?_eq_none_iff
  · obtain ⟨ls, lined⟩ := Text.exists_lined text.toList
    rw [Text.toUTF8_eq_iff.1 whole]
    exact ⟨ls, _, lined, rfl, expressionsOf?_encode lined, run_of_read (expressionsOf?_encode lined)⟩
  · intro input' text text' ls whole whole' layout layout'
    rw [Text.toUTF8_eq_iff.1 whole, Text.toUTF8_eq_iff.1 whole']
    exact run_of_layout ordered layout layout' options

/-- The last byte of the first input is no text and spoils the line before it too. Of the other two, one has
a return at the end of its first line, a line of white space, and no end of its last line. -/
theorem run_input_of_mixed_ends :
    Collector.Ordered List.map ∧
      ¬ ByteArray.IsValidUTF8 ⟨[0x31, 0x0A, 0xFF].toArray⟩ ∧
      (run List.map ⟨⟨2, true⟩, []⟩ [0x31, 0x0A, 0xFF]).output = [] ∧
      run List.map ⟨⟨2, true⟩, []⟩ (encode "1+1\r\r\n\u00a0\n2".toList) =
        run List.map ⟨⟨2, true⟩, []⟩ (encode "1+1\r\n2\r\n".toList) := by
  have spoiled : expressionsOf? [0x31, 0x0A, 0xFF] = none := by decide +kernel
  obtain ⟨invalid, failed, -⟩ := run_input Collector.ordered_map ⟨2, true⟩ [0x31, 0x0A, 0xFF]
  have first : '\n' ∉ ['1', '+', '1', '\r'] := by decide
  have space : '\n' ∉ ['\u00a0'] := by decide
  have white : ∀ c ∈ ['\u00a0'], Text.isWhiteSpace c = true := by
    have whites : ['\u00a0'].all Text.isWhiteSpace = true := by decide
    exact List.all_eq_true.1 whites
  have last : '\n' ∉ ['2'] := by decide
  have layout : Layout [['1', '+', '1', '\r'], ['2']] "1+1\r\r\n\u00a0\n2".toList :=
    .line first (.returned _) (.blank space white (.lineFeed _) (.line last .missing .nil))
  have layout' : Layout [['1', '+', '1', '\r'], ['2']] "1+1\r\n2\r\n".toList :=
    .line first (.lineFeed _) (.line last (.returned _) .nil)
  have same := (run_input Collector.ordered_map ⟨2, true⟩ (encode "1+1\r\r\n\u00a0\n2".toList)).2.2.2 _ _ _ _
    (Text.toUTF8_eq_iff.2 rfl) (Text.toUTF8_eq_iff.2 rfl) layout layout'
  refine ⟨Collector.ordered_map, invalid.1 spoiled, ?_, same⟩
  rw [failed.2 (invalid.1 spoiled)]

end CommandLine

end Calculator
