/-!
Nonnegative fractions of natural numbers, scaled by powers of two and ten. Numbers are read and
written by exact arithmetic on them.
-/

namespace ArrayExpr.Decimal

structure Fraction where
  num : Nat
  den : Nat
  deriving DecidableEq, Repr

namespace Fraction

/-- The fraction `m * 2 ^ e`. -/
def ofBinary (m : Nat) (e : Int) : Fraction :=
  if 0 ≤ e then ⟨m * Nat.pow 2 e.toNat, 1⟩ else ⟨m, Nat.pow 2 (-e).toNat⟩

/-- The fraction `m * 10 ^ e`. -/
def ofDecimal (m : Nat) (e : Int) : Fraction :=
  if 0 ≤ e then ⟨m * Nat.pow 10 e.toNat, 1⟩ else ⟨m, Nat.pow 10 (-e).toNat⟩

/-- A fraction divided by `2 ^ e`. -/
def unscaleBinary (v : Fraction) (e : Int) : Fraction :=
  if 0 ≤ e then ⟨v.num, v.den * Nat.pow 2 e.toNat⟩ else ⟨v.num * Nat.pow 2 (-e).toNat, v.den⟩

/-- A fraction divided by `10 ^ e`. -/
def unscale (v : Fraction) (e : Int) : Fraction :=
  if 0 ≤ e then ⟨v.num, v.den * Nat.pow 10 e.toNat⟩ else ⟨v.num * Nat.pow 10 (-e).toNat, v.den⟩

def floor (v : Fraction) : Nat :=
  v.num / v.den

/-- The nearest natural number, and of two equally near ones the even one. -/
def round (v : Fraction) : Nat :=
  let q := v.floor
  let twice := 2 * (v.num % v.den)
  if twice < v.den then q
  else if v.den < twice then q + 1
  else if q % 2 == 0 then q else q + 1

/-- The least `k`, from `start` on, with `den ≤ num * 10 ^ k`; `fuel` bounds the search. -/
def leadingZeros (v : Fraction) : (fuel start : Nat) → Nat
  | 0, start => start
  | fuel + 1, start =>
    if v.den ≤ v.num * Nat.pow 10 start then start else leadingZeros v fuel (start + 1)

def magnitude (v : Fraction) : Int :=
  if v.den ≤ v.num then ((Nat.toDigits 10 v.floor).length : Int) - 1
  else -((v.leadingZeros 400 1 : Nat) : Int)

def binaryMagnitude (v : Fraction) : Int :=
  let guess : Int := (v.num.log2 : Int) - v.den.log2
  let scaled := v.unscaleBinary guess
  if scaled.den ≤ scaled.num then guess else guess - 1

end Fraction

end ArrayExpr.Decimal
