/-!
# Lines and white space

A sequence of bytes or characters is a sequence of lines. A line ends at a line feed, a carriage
return before it belongs to the line end, and a last line may lack its end. Nothing follows the last
line feed, so that an empty sequence has no lines.

White space is the code points with the Unicode property White_Space, and the text of a line is what
stands between those at both of its ends.
-/

namespace Calculator.Text

section

variable {α : Type} [DecidableEq α]

/-- A line without a carriage return at its end. -/
def dropReturn (carriageReturn : α) (line : List α) : List α :=
  if line.getLast? = some carriageReturn then line.dropLast else line

/-- The lines of a sequence, without their ends. -/
def lines (lineFeed carriageReturn : α) : List α → List (List α)
  | [] => []
  | text =>
    let line := text.takeWhile (· ≠ lineFeed)
    match h : text.dropWhile (· ≠ lineFeed) with
    | [] => [line]
    | _ :: rest =>
      have : rest.length < text.length := by
        have := (List.dropWhile_sublist (fun a => decide (a ≠ lineFeed)) (l := text)).length_le
        simp only [h, List.length_cons] at this
        omega
      dropReturn carriageReturn line :: lines lineFeed carriageReturn rest
termination_by text => text.length

end

/-- The first and last code points of the runs that have the property White_Space. -/
def whiteSpaceRanges : List (Nat × Nat) :=
  [(0x9, 0xD), (0x20, 0x20), (0x85, 0x85), (0xA0, 0xA0), (0x1680, 0x1680), (0x2000, 0x200A),
    (0x2028, 0x2029), (0x202F, 0x202F), (0x205F, 0x205F), (0x3000, 0x3000)]

/-- The character has the property White_Space. -/
def isWhiteSpace (c : Char) : Bool :=
  whiteSpaceRanges.any fun r => r.1 ≤ c.toNat && c.toNat ≤ r.2

/-- The text without the white space at its ends. -/
def trim (text : List Char) : List Char :=
  ((text.dropWhile isWhiteSpace).reverse.dropWhile isWhiteSpace).reverse

/-- White space at the ends of a string is removed. -/
def trimString (s : String) : String := String.ofList (trim s.toList)

end Calculator.Text
