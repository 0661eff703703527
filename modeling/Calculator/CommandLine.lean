import Calculator.Evaluation
import Calculator.Text

/-!
# The command line

A run evaluates the expressions among its arguments, or those on its input if there are none. Each line
of an input holds one expression. The lines are decoded one by one, and a line that is no valid UTF-8
spoils the whole input. Lines of nothing but white space are left out.

The results are reported one by one, in the order of the expressions. A result alone is printed bare,
and among others after its expression. An expression without a result is reported among the errors and
counted, and the run ends well if the count shows no failure. How the arguments are written is not said
here: a run starts with what they have been read as.
-/

namespace Calculator.CommandLine

/-- What the options of a run say. -/
structure Options where
  /-- The decimal places asked for. -/
  places : Int := defaultPlaces
  /-- Each result is followed by its expression in postorder. -/
  showPostorder : Bool := false
deriving DecidableEq, Repr

/-- The arguments of a run. -/
structure Arguments extends Options where
  expressions : List String := []
deriving DecidableEq, Repr

/-- The lines of an input, without their ends. -/
def linesOf (input : List UInt8) : List (List UInt8) :=
  Text.lines 0x0A 0x0D input

/-- The text of a sequence of bytes, if they are valid UTF-8. -/
def decode? (bytes : List UInt8) : Option String :=
  String.fromUTF8? ⟨bytes.toArray⟩

/-- The text is nothing but white space. -/
def isBlankLine (line : String) : Bool :=
  line.toList.all Text.isWhiteSpace

/-- The expressions of an input, one a line, unless it is not valid UTF-8. -/
def expressionsOf? (input : List UInt8) : Option (List String) :=
  ((linesOf input).mapM decode?).map (·.filter (!isBlankLine ·))

/-- Why a run evaluates nothing. -/
inductive SourceFault where
  /-- The input is not valid UTF-8. -/
  | spoiled
  /-- There is no expression. -/
  | missing
deriving DecidableEq, Repr

/-- The wording of a fault. -/
def SourceFault.message : SourceFault → String
  | spoiled => "Failed to read expression from input: stream did not contain valid UTF-8"
  | missing => "No expressions given"

/-- The expressions of a run. The input counts only if there are none among the arguments. -/
def Arguments.sources (arguments : Arguments) (input : List UInt8) :
    Except SourceFault (List String) := do
  let sources ←
    if arguments.expressions.isEmpty then
      match expressionsOf? input with
      | some sources => .ok sources
      | none => .error .spoiled
    else .ok arguments.expressions
  if sources.isEmpty then .error .missing else .ok sources

/-- The postorder of an expression as it follows a result. -/
def postorderNote (source : String) : String :=
  match postorderOf source with
  | .ok tokens => "    [" ++ String.ofList (Token.listText tokens) ++ "]"
  | .error _ => ""

/-- The line of a result, after its expression unless that is the only one. -/
def resultLine (options : Options) (single : Bool) (source : String) (number : Number) : String :=
  let line := if single then toString number else Text.trimString source ++ " = " ++ toString number
  if options.showPostorder then line ++ postorderNote source else line

/-- The line of an expression without a result. -/
def failureLine (source : String) (reason : Failure) : String :=
  Text.trimString source ++ ": " ++ reason.message

/-- What a run has printed so far, and its count of failures, which is kept in 32 bits with a sign. -/
structure Progress where
  output : List String := []
  errors : List String := []
  failed : Int32 := 0
deriving DecidableEq, Repr

/-- Reports one expression with its result. -/
def Progress.step (options : Options) (single : Bool) (progress : Progress) :
    String × Except Failure Number → Progress
  | (source, .ok number) =>
    { progress with output := progress.output ++ [resultLine options single source number] }
  | (source, .error reason) =>
    { progress with
      errors := progress.errors ++ [failureLine source reason]
      failed := progress.failed + 1 }

/-- Reports expressions with their results, from the first to the last. -/
def Progress.run (options : Options) (single : Bool) (progress : Progress)
    (pairs : List (String × Except Failure Number)) : Progress :=
  pairs.foldl (step options single) progress

/-- What a run leaves: its exit code and the lines it prints. -/
structure Outcome where
  exitCode : Nat
  output : List String
  errors : List String
deriving DecidableEq, Repr

/-- A run that ends at an error of its own. -/
def Outcome.failed (message : String) : Outcome := ⟨1, [], ["Error: " ++ message]⟩

/-- The line that counts the failures of a run. -/
def summary (failed : Int32) (total : Nat) : String :=
  "Error: " ++ toString failed ++ " of " ++ toString total ++
    " expression(s) could not be evaluated"

/-- How a run over `total` expressions ends. -/
def Progress.outcome (progress : Progress) (total : Nat) : Outcome :=
  if 0 < progress.failed then
    ⟨1, progress.output, progress.errors ++ [summary progress.failed total]⟩
  else ⟨0, progress.output, progress.errors⟩

/-- The outcome of a run over expressions. -/
def report (collect : Collector) (options : Options) (sources : List String) : Outcome :=
  let results := evaluateAll collect (placesOf options.places) sources
  let single := sources.length = 1
  (Progress.run options single {} (sources.zip results)).outcome sources.length

/-- The outcome of a run. -/
def run (collect : Collector) (arguments : Arguments) (input : List UInt8) : Outcome :=
  match arguments.sources input with
  | .error fault => .failed fault.message
  | .ok sources => report collect arguments.toOptions sources

/-- Lines as they are printed, each with its end. -/
def printed (lines : List String) : String :=
  String.join (lines.map (· ++ "\n"))

end Calculator.CommandLine
