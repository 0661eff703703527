import Calculator.Number
import Calculator.Source
import Calculator.Token
import Calculator.Postorder

/-!
# Evaluation

A text is checked, split into tokens, put into postorder and reduced, and the value is rounded to a
number of decimal places. Faults of the text win over faults of evaluation. Many texts are evaluated
side by side, and what runs them and gathers their results is a parameter.
-/

namespace Calculator

/-- Why a text has no result. -/
inductive Failure where
  | text (fault : TextFault)
  | value (fault : Fault)
deriving DecidableEq, Repr

/-- The wording of a failure. -/
def Failure.message : Failure → String
  | text fault => "Invalid expression text: " ++ fault.message
  | value fault => "Expression evaluation error: " ++ fault.message

/-- The decimal places of a result when none are asked for. -/
def defaultPlaces : Nat := 2

/-- The places that a request stands for; a negative one asks for whole numbers. -/
def placesOf (requested : Int) : Nat := requested.toNat

/-- The tokens of a text in postorder. -/
def postorderOf (source : String) : Except Failure (List Token) := do
  let text ← (Source.accept source.toList).mapError .text
  let tokens ← (Token.ofText text).mapError .value
  return postorder tokens

/-- The result of an expression, rounded to a number of decimal places. -/
def evaluate (places : Nat) (source : String) : Except Failure Number := do
  let tokens ← postorderOf source
  let value ← (reduce tokens).mapError .value
  return .ofBinary64 (value.roundToPlaces places)

/-- The result of an expression, if it has one; `defaultPlaces` if no places are asked for. -/
def calculate? (requested : Option Int) (source : String) : Option Number :=
  (evaluate (requested.elim defaultPlaces placesOf) source).toOption

/-- What applies a function to each of many texts and gathers the results. -/
abbrev Collector := (String → Except Failure Number) → List String → List (Except Failure Number)

/-- Each result stands at the position of its text, in whatever order the texts are taken. -/
def Collector.Ordered (collect : Collector) : Prop :=
  ∀ f sources (i : Nat), (collect f sources)[i]? = sources[i]?.map f

/-- The results of many expressions. -/
def evaluateAll (collect : Collector) (places : Nat) (sources : List String) :
    List (Except Failure Number) :=
  collect (evaluate places) sources

end Calculator
