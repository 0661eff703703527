import Calculator.Expr

/-!
# The grammar of expressions

Sums of products of powers of atoms, where an atom is a number or a sum in parentheses. Sums and
products group from the left and powers from the right. The rules leave open what numbers,
operators and parentheses are written with, so that the same grammar describes lists of tokens and
texts without blanks.
-/

namespace Calculator

/-- How the terminals of the grammar are written. -/
structure Alphabet (α : Type) where
  /-- The spellings of a number. -/
  number : Binary64 → List α → Prop
  operator : Operator → α
  opening : α
  closing : α

/-- The levels of the grammar, loosest first. -/
inductive Level where
  | sum
  | product
  | power
  | atom
deriving DecidableEq, Repr

/-- A tree and what it is written as at a level of the grammar. -/
inductive Derives {α : Type} (A : Alphabet α) : Level → Expr → List α → Prop where
  | number {value : Binary64} {text : List α} :
      A.number value text → Derives A .atom (.number value) text
  | group {e : Expr} {text : List α} :
      Derives A .sum e text → Derives A .atom e (A.opening :: text ++ [A.closing])
  | power {base exponent : Expr} {text text' : List α} :
      Derives A .atom base text → Derives A .power exponent text' →
        Derives A .power (.apply .pow base exponent) (text ++ A.operator .pow :: text')
  | product {op : Operator} {left right : Expr} {text text' : List α} :
      op = .mul ∨ op = .div → Derives A .product left text → Derives A .power right text' →
        Derives A .product (.apply op left right) (text ++ A.operator op :: text')
  | sum {op : Operator} {left right : Expr} {text text' : List α} :
      op = .add ∨ op = .sub → Derives A .sum left text → Derives A .product right text' →
        Derives A .sum (.apply op left right) (text ++ A.operator op :: text')
  | ofAtom {e : Expr} {text : List α} : Derives A .atom e text → Derives A .power e text
  | ofPower {e : Expr} {text : List α} : Derives A .power e text → Derives A .product e text
  | ofProduct {e : Expr} {text : List α} : Derives A .product e text → Derives A .sum e text

/-- Tokens as terminals; a number is one token. -/
def tokenAlphabet : Alphabet Token where
  number value text := text = [.number value]
  operator := .operator
  opening := .opening
  closing := .closing

/-- The texts of a decimal: digits, or digits with a point among or after them. -/
inductive Spells : Rat → List Char → Prop where
  | whole {digits : List Char} : digits ≠ [] → digits.all Char.isDigit = true →
      Spells (Nat.ofDigitChars 10 digits 0) digits
  | point {digits fraction : List Char} : digits ≠ [] → digits.all Char.isDigit = true →
      fraction.all Char.isDigit = true →
      Spells (Nat.ofDigitChars 10 (digits ++ fraction) 0 / (10 : Rat) ^ fraction.length)
        (digits ++ '.' :: fraction)

end Calculator
