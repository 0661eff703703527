import Calculator.Binary64.Nearest

/-!
# Arithmetic on binary64 values

Each operation on finite numbers takes the exact rational result and rounds it once. A sum of two
opposite numbers is the positive zero, a zero product or quotient has the sign of its factors. The
operations without a result on infinities and zeros give nan.
-/

namespace Calculator.Binary64

/-- The sum. -/
def add : Binary64 → Binary64 → Binary64
  | nan, _ | _, nan => nan
  | infinite s, infinite t => if s = t then infinite s else nan
  | infinite s, finite .. => infinite s
  | finite .., infinite t => infinite t
  | finite s m, finite t n => nearest (s && t) (signed s m.toRat + signed t n.toRat)

/-- The value with the opposite sign. -/
def negate : Binary64 → Binary64
  | nan => nan
  | infinite s => infinite !s
  | finite s m => finite (!s) m

/-- The difference. -/
def sub (x y : Binary64) : Binary64 :=
  x.add y.negate

/-- The product. -/
def mul : Binary64 → Binary64 → Binary64
  | nan, _ | _, nan => nan
  | infinite s, infinite t => infinite (s != t)
  | infinite s, finite t n => if n.index = 0 then nan else infinite (s != t)
  | finite s m, infinite t => if m.index = 0 then nan else infinite (s != t)
  | finite s m, finite t n => roundMagnitude (s != t) (m.toRat * n.toRat)

/-- The quotient; a zero divides into an infinity, but into nan when both are zero. -/
def div : Binary64 → Binary64 → Binary64
  | nan, _ | _, nan => nan
  | infinite _, infinite _ => nan
  | infinite s, finite t _ => infinite (s != t)
  | finite s _, infinite t => finite (s != t) .zero
  | finite s m, finite t n =>
    if n.index = 0 then if m.index = 0 then nan else infinite (s != t)
    else roundMagnitude (s != t) (m.toRat / n.toRat)

/-- The nearest whole number with the same sign, halves going away from zero. -/
def roundWhole : Binary64 → Binary64
  | finite s m => roundMagnitude s (nearestNat .upward m.toRat)
  | x => x

/-- The value nearest to a whole number. -/
def ofInt (n : Int) : Binary64 :=
  nearest false n

/-- The product of `r` and the `n`-th power of `a`, by squaring `a` once for each binary digit of
`n` and rounding every product. -/
def mulPow (r a : Binary64) (n : Nat) : Binary64 :=
  if n = 0 then r
  else mulPow (if n % 2 = 1 then r.mul a else r) (a.mul a) (n / 2)

end Calculator.Binary64
