import Calculator.Decimal.Basic
import Calculator.Binary64.Nearest

/-!
# The shortest decimal that reads back

Many decimals are nearest to one magnitude. The one that stands for it has the fewest significant
digits, and among those it is the nearest one, the larger of two equally near. On the grid of
decimals with a given count of digits only the two neighbours of the magnitude have to be tried,
and seventeen digits always suffice.
-/

namespace Calculator

namespace Magnitude

/-- The decimal is nearer to this magnitude than to any other. -/
def reads (m : Magnitude) (d : Decimal) : Bool :=
  nearestIndex d.toRat == m.index

/-- Of two neighbouring decimals around the value of `m`, the one that stands for it on their grid:
one that reads back, the nearer if both do, and `above` if they are equally near. -/
def choose? (m : Magnitude) (below above : Decimal) : Option Decimal :=
  match m.reads below, m.reads above with
  | true, true =>
    some (if m.toRat - below.toRat < above.toRat - m.toRat then below else above)
  | true, false => some below
  | false, true => some above
  | false, false => none

/-- The decimal with `count` significant digits that stands for `m`, if one reads back. -/
def withDigits? (m : Magnitude) (count : Nat) : Option Decimal :=
  let exponent := decade m.toRat - count + 1
  let below := (m.toRat / (10 : Rat) ^ exponent).floor.toNat
  m.choose? ⟨below, exponent⟩ ⟨below + 1, exponent⟩

/-- The exact value as a decimal. -/
def exactDecimal (m : Magnitude) : Decimal :=
  if 0 ≤ m.exponent then ⟨m.coefficient * Nat.pow 2 m.exponent.toNat, 0⟩
  else ⟨m.coefficient * Nat.pow 5 (-m.exponent).toNat, m.exponent⟩

/-- The decimal with the fewest significant digits that reads back as `m`. -/
def shortest (m : Magnitude) : Decimal :=
  if m.index = 0 then ⟨0, 0⟩
  else ((List.range 17).findSome? fun n => m.withDigits? (n + 1)).getD m.exactDecimal

end Magnitude

namespace Binary64

/-- The text of a value: the shortest positional digits that read back, with a sign. -/
def text : Binary64 → List Char
  | nan => "NaN".toList
  | infinite negative => (if negative then "-inf" else "inf").toList
  | finite negative m => (if negative then ['-'] else []) ++ m.shortest.text

end Binary64

end Calculator
