import Calculator.Binary64.Arithmetic
import Calculator.Binary64.Basic
import Calculator.Binary64.Nearest
import Calculator.Binary64.Order
import Calculator.Binary64.Places
import Calculator.Binary64.Power
import Calculator.CommandLine
import Calculator.Decimal.Basic
import Calculator.Decimal.Shortest
import Calculator.Evaluation
import Calculator.Expr
import Calculator.Grammar
import Calculator.Number
import Calculator.Numeric.FixedPoint
import Calculator.Numeric.Nearest
import Calculator.Operator
import Calculator.Postorder
import Calculator.Proofs.Binary64.Finite
import Calculator.Proofs.Binary64.Integer
import Calculator.Proofs.Binary64.Monotone
import Calculator.Proofs.Binary64.Places
import Calculator.Proofs.Binary64.Position
import Calculator.Proofs.Binary64.PrintedPlaces
import Calculator.Proofs.Binary64.RelativeError
import Calculator.Proofs.Binary64.Rounding
import Calculator.Proofs.Binary64.Settled
import Calculator.Proofs.Binary64.Snapping
import Calculator.Proofs.Binary64.Spacing
import Calculator.Proofs.Binary64.TypedDecimals
import Calculator.Proofs.Binary64.Whole
import Calculator.Proofs.Binary64.WholePlaces
import Calculator.Proofs.CommandLine.Batch
import Calculator.Proofs.CommandLine.Input
import Calculator.Proofs.Decimal.Places
import Calculator.Proofs.Decimal.Recovery
import Calculator.Proofs.Decimal.Shortest
import Calculator.Proofs.Decimal.Significant
import Calculator.Proofs.Decimal.Text
import Calculator.Proofs.Evaluation.Division
import Calculator.Proofs.Evaluation.Grammar
import Calculator.Proofs.Evaluation.Places
import Calculator.Proofs.Evaluation.Printed
import Calculator.Proofs.Evaluation.Refusal
import Calculator.Proofs.Evaluation.Rounding
import Calculator.Proofs.Grammar.Juxtaposition
import Calculator.Proofs.Grammar.Recognition
import Calculator.Proofs.Number
import Calculator.Proofs.Numeric.Exponent
import Calculator.Proofs.Numeric.Nearest
import Calculator.Proofs.Operator.Precedence
import Calculator.Proofs.Outcome
import Calculator.Proofs.Postorder.Accounting
import Calculator.Proofs.Postorder.Boundary
import Calculator.Proofs.Postorder.Conservation
import Calculator.Proofs.Postorder.FirstFault
import Calculator.Proofs.Postorder.Forest
import Calculator.Proofs.Postorder.Layers
import Calculator.Proofs.Postorder.Nesting
import Calculator.Proofs.Postorder.Operands
import Calculator.Proofs.Postorder.Pairing
import Calculator.Proofs.Postorder.Substitution
import Calculator.Proofs.Postorder.Tree
import Calculator.Proofs.Source.Spacing
import Calculator.Proofs.Text.Encoding
import Calculator.Proofs.Text.Lines
import Calculator.Proofs.Token.Munch
import Calculator.Proofs.Token.Points
import Calculator.Proofs.Token.Printing
import Calculator.Proofs.Token.Reading
import Calculator.Proofs.Token.Span
import Calculator.Source
import Calculator.Text
import Calculator.Token
import Calculator.Token.Span
