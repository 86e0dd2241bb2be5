import ArrayExpr.Json.Display
import ArrayExpr.Text.Character
import ArrayExpr.Token.Basic

/-!
Reading the location of a token: a mapping whose entries are whole numbers or stand for one. A whole
number that is written as text may have white space around it, a sign, decimal digits of any script, and
single underscores between digits.
-/

namespace ArrayExpr

namespace Numeral

def isFigure (c : Char) : Bool :=
  c == '_' || (Text.digitValue? c).isSome

/-- Whether every underscore stands between two digits; `free` tells whether one may come next. -/
def wellSpaced : (free : Bool) → List Char → Bool
  | free, [] => free
  | free, c :: cs => if c == '_' then free && wellSpaced false cs else wellSpaced true cs

def digits (cs : List Char) : List Nat :=
  cs.filterMap Text.digitValue?

def valueOf (ds : List Nat) : Nat :=
  ds.foldl (fun n d => n * 10 + d) 0

def sign : List Char → Bool × List Char
  | '-' :: cs => (true, cs)
  | '+' :: cs => (false, cs)
  | cs => (false, cs)

/-- Reads a whole number. -/
def read (text : String) : Except Fault Int :=
  let (negative, cs) := sign (text.toList.dropWhile Text.isMargin)
  let figures := cs.takeWhile isFigure
  let rest := cs.dropWhile isFigure
  let ds := digits figures
  if !wellSpaced false figures then .error (.notNumeral (Text.quote text))
  else if Json.digitLimit < ds.length then .error (.tooManyDigits ds.length)
  else if rest.all Text.isMargin then .ok (Decimal.signedNat negative (valueOf ds))
  else .error (.notNumeral (Text.quote text))

end Numeral

/-- The whole number that plain data stands for: numbers lose their places, truth values count as
zero and one, and text is read. -/
def Json.toWhole : Json → Except Fault Int
  | .int n => .ok n
  | .bool b => .ok (if b then 1 else 0)
  | .float x =>
    match Decimal.truncate? x with
    | some n => .ok n
    | none => .error (if x.isNaN then .undefinedNumber else .infiniteNumber)
  | .str s => Numeral.read s
  | j => .error (.notNumber j.typeName)

def Json.wholeField (key : String) (entries : List (String × Json)) (default : Int) :
    Except Fault Int :=
  match Json.lookup? key entries with
  | some j => j.toWhole
  | none => .ok default

/-- The span of a location. A missing end is the start. -/
def Span.ofJson : Json → Except Fault Span
  | .object entries => do
    let startLine ← Json.wholeField "startLine" entries 0
    let startColumn ← Json.wholeField "startColumn" entries 0
    let endLine ← Json.wholeField "endLine" entries startLine
    let endColumn ← Json.wholeField "endColumn" entries startColumn
    return ⟨startLine, startColumn, endLine, endColumn⟩
  | j => .error (.noEntries j.typeName)

end ArrayExpr
