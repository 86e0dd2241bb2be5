import ArrayExpr.Decimal.Fraction

/-!
The shortest decimal that reads back. Of all decimals that round to a given double, the one with the
fewest digits is chosen, among several the nearest, and of two equally near ones the even one.
Everything is exact arithmetic on fractions of natural numbers.
-/

namespace ArrayExpr.Decimal

/-- A positive decimal `coefficient * 10 ^ exponent`. -/
structure Digits where
  coefficient : Nat
  exponent : Int
  deriving DecidableEq, Repr

def Digits.text (d : Digits) : List Char :=
  Nat.toDigits 10 d.coefficient

def Digits.magnitude (d : Digits) : Int :=
  (d.text.length : Int) - 1 + d.exponent

/-- Drops the zeros at the end of a coefficient; `fuel` bounds their number. -/
def trimZeros : Nat → Digits → Digits
  | 0, d => d
  | fuel + 1, d =>
    if d.coefficient != 0 && d.coefficient % 10 == 0 then
      trimZeros fuel ⟨d.coefficient / 10, d.exponent + 1⟩
    else d

def Digits.trim (d : Digits) : Digits :=
  trimZeros (d.text.length) d

/-- The bounds of what rounds to `m * 2 ^ e`, and whether the bounds belong to it. Below a power of
two the doubles lie closer together. -/
def roundingInterval (m : Nat) (e : Int) : Fraction × Fraction × Bool :=
  let below := if m == Nat.pow 2 52 && -1074 < e then 1 else 2
  (.ofBinary (4 * m - below) (e - 2), .ofBinary (4 * m + 2) (e - 2), m % 2 == 0)

/-- Whether `c * 10 ^ e` lies in the interval. -/
def inInterval (interval : Fraction × Fraction × Bool) (c : Nat) (e : Int) : Bool :=
  let (low, high, closed) := interval
  let l := low.unscale e
  let h := high.unscale e
  if closed then l.num ≤ c * l.den && c * h.den ≤ h.num
  else l.num < c * l.den && c * h.den < h.num

/-- Tries `k` digits, then one more, until a decimal of that length reads back. -/
def shortestFrom (v : Fraction) (interval : Fraction × Fraction × Bool) (magnitude : Int) :
    (fuel k : Nat) → Digits
  | 0, k => ⟨(v.unscale (magnitude - k + 1)).round, magnitude - k + 1⟩
  | fuel + 1, k =>
    let e := magnitude - k + 1
    let scaled := v.unscale e
    let c := scaled.floor
    match inInterval interval c e, inInterval interval (c + 1) e with
    | true, true => ⟨scaled.round, e⟩
    | true, false => ⟨c, e⟩
    | false, true => ⟨c + 1, e⟩
    | false, false => shortestFrom v interval magnitude fuel (k + 1)

/-- The shortest decimal that reads back as `m * 2 ^ e`; seventeen digits always do. -/
def shortest (m : Nat) (e : Int) : Digits :=
  if m == 0 then ⟨0, 0⟩
  else
    let v := Fraction.ofBinary m e
    (shortestFrom v (roundingInterval m e) v.magnitude 17 1).trim

/-- `m * 2 ^ e` rounded to a multiple of `10 ^ place`, a half to the even neighbour. -/
def roundedAt (m : Nat) (e place : Int) : Digits :=
  (Digits.mk ((Fraction.ofBinary m e).unscale place).round place).trim

end ArrayExpr.Decimal
