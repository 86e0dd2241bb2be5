import ArrayExpr.Decimal.Fraction

/-!
Double-precision numbers as exact values. Every finite double is a whole number times a power of
two; on that form rounding to the nearest double, truncation and the remainder of a division are
exact integer arithmetic.
-/

namespace ArrayExpr.Decimal

/-- What a double stands for: a finite one is `± mantissa * 2 ^ exponent`. -/
inductive Binary64 where
  | nan
  | infinite (negative : Bool)
  | finite (negative : Bool) (mantissa : Nat) (exponent : Int)
  deriving DecidableEq, Repr

/-- Reads the sign, exponent and fraction fields of a double. -/
def Binary64.ofBits (bits : Nat) : Binary64 :=
  let negative : Bool := bits / Nat.pow 2 63 % 2 == 1
  let field : Nat := bits / Nat.pow 2 52 % Nat.pow 2 11
  let fraction : Nat := bits % Nat.pow 2 52
  if field == 2047 then
    if fraction == 0 then .infinite negative else .nan
  else if field == 0 then .finite negative fraction (-1074)
  else .finite negative (fraction + Nat.pow 2 52) ((field : Int) - 1075)

/-- The fields of a double as one number; a mantissa below `2 ^ 52` stands at the least exponent. -/
def Binary64.toBits : Binary64 → Nat
  | .nan => 2047 * Nat.pow 2 52 + Nat.pow 2 51
  | .infinite negative => (if negative then Nat.pow 2 63 else 0) + 2047 * Nat.pow 2 52
  | .finite negative m e =>
    (if negative then Nat.pow 2 63 else 0) +
      if m < Nat.pow 2 52 then m else (e + 1075).toNat * Nat.pow 2 52 + (m - Nat.pow 2 52)

def Binary64.ofFloat (x : Float) : Binary64 :=
  .ofBits x.toBits.toNat

def Binary64.toFloat (b : Binary64) : Float :=
  Float.ofBits (UInt64.ofNat b.toBits)

/-- The double nearest to a signed fraction; a half goes to the even mantissa. -/
def Binary64.nearest (negative : Bool) (v : Fraction) : Binary64 :=
  if v.num == 0 then .finite negative 0 (-1074)
  else
    let e := max (v.binaryMagnitude - 52) (-1074)
    let m := (v.unscaleBinary e).round
    let (m, e) := if m == Nat.pow 2 53 then (Nat.pow 2 52, e + 1) else (m, e)
    if 971 < e then .infinite negative else .finite negative m e

def floatOfInt (n : Int) : Float :=
  (Binary64.nearest (n < 0) ⟨n.natAbs, 1⟩).toFloat

/-- The double nearest to `± coefficient * 10 ^ exponent`. Far outside the range of doubles the
answer is infinite or zero without computing the power. -/
def floatOfDecimal (negative : Bool) (coefficient : Nat) (exponent : Int) : Float :=
  let magnitude := ((Nat.toDigits 10 coefficient).length : Int) + exponent
  (if coefficient == 0 || magnitude < -330 then Binary64.finite negative 0 (-1074)
    else if 320 < magnitude then .infinite negative
    else .nearest negative (.ofDecimal coefficient exponent)).toFloat

def signedNat (negative : Bool) (n : Nat) : Int :=
  if negative then -(n : Int) else n

def truncate? (x : Float) : Option Int :=
  match Binary64.ofFloat x with
  | .finite negative m e => some (signedNat negative (Fraction.ofBinary m e).floor)
  | _ => none

/-- The integer that a double equals, if there is one. -/
def whole? (x : Float) : Option Int :=
  match Binary64.ofFloat x with
  | .finite negative m e =>
    let v := Fraction.ofBinary m e
    if v.num % v.den == 0 then some (signedNat negative v.floor) else none
  | _ => none

def isNegative (x : Float) : Bool :=
  match Binary64.ofFloat x with
  | .nan => false
  | .infinite negative | .finite negative _ _ => negative

def isFinite (x : Float) : Bool :=
  match Binary64.ofFloat x with
  | .finite .. => true
  | _ => false

/-- The remainder of a division that truncates, with the sign of the dividend; not a number when
the dividend is infinite or the divisor zero. -/
def truncatedRemainder (x y : Float) : Float :=
  match Binary64.ofFloat x, Binary64.ofFloat y with
  | .finite negative m e, .finite _ n f =>
    if n == 0 then Binary64.nan.toFloat
    else
      let low := min e f
      let a := m * Nat.pow 2 (e - low).toNat
      let b := n * Nat.pow 2 (f - low).toNat
      (Binary64.nearest negative (.ofBinary (a % b) low)).toFloat
  | .finite .., .infinite _ => x
  | _, _ => Binary64.nan.toFloat

end ArrayExpr.Decimal
