import ArrayExpr.Decimal.Binary64
import ArrayExpr.Decimal.Shortest

/-!
The text of a number. A double is written with the fewest digits that read back: positionally with
at least one place when the first digit stands between the fourth place and the sixteenth figure,
and otherwise with an exponent of at least two digits.
-/

namespace ArrayExpr.Decimal

def padZeros (width : Nat) (digits : List Char) : List Char :=
  List.replicate (width - digits.length) '0' ++ digits

/-- The integer figures and the places of a decimal. -/
def Digits.split (d : Digits) : List Char × List Char :=
  if 0 ≤ d.exponent then (d.text ++ List.replicate d.exponent.toNat '0', [])
  else
    let places := (-d.exponent).toNat
    let ds := padZeros (places + 1) d.text
    (ds.take (ds.length - places), ds.drop (ds.length - places))

/-- A sign and the digits of an exponent, at least `width` of them. -/
def exponentText (width : Nat) (e : Int) : List Char :=
  (if e < 0 then '-' else '+') :: padZeros width (Nat.toDigits 10 e.natAbs)

def signed (negative : Bool) (cs : List Char) : String :=
  String.ofList (if negative then '-' :: cs else cs)

/-- A decimal in plain or exponent notation. -/
def Digits.write (d : Digits) : List Char :=
  if -4 ≤ d.magnitude && d.magnitude < 16 then
    let (figures, places) := d.split
    figures ++ '.' :: (if places.isEmpty then ['0'] else places)
  else
    let places := d.text.drop 1
    d.text.take 1 ++ (if places.isEmpty then [] else '.' :: places) ++
      'e' :: exponentText 2 d.magnitude

def floatText (x : Float) : String :=
  match Binary64.ofFloat x with
  | .nan => "nan"
  | .infinite negative => signed negative "inf".toList
  | .finite negative m e => signed negative (shortest m e).write

def intText (n : Int) : String :=
  signed (n < 0) (Nat.toDigits 10 n.natAbs)

end ArrayExpr.Decimal
