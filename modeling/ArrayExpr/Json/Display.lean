import ArrayExpr.Fault

/-!
The texts of plain data in messages: `shown` is the text of a value by itself, `quoted` its text
inside other values. They differ for strings only.

Not everything can be written. Lists and mappings have to nest no deeper than there is room for, and a
whole number must not have more digits than one that is read; `obstacle?` is what a writer that goes
from left to right meets first.
-/

namespace ArrayExpr

def boolText (b : Bool) : String := if b then "True" else "False"

/-- How deep lists and mappings may nest in a text that a capability, a warning or the command asks
for. -/
def textLimit : Nat := 990

/-- How deep texts may nest where evaluations may go `depth` levels further down: one level of an
evaluation takes as much of the common limit as three levels of a text. -/
def writingRoom (depth : Nat) : Nat := 3 * depth

/-- What keeps a whole number from being written: too many digits. -/
def numeralObstacle? (n : Int) : Option Fault :=
  if (Nat.toDigits 10 n.natAbs).length ≤ Json.digitLimit then none else some .longNumeral

def written (text : String) : (obstacle? : Option Fault) → Except Fault String
  | none => .ok text
  | some fault => .error fault

namespace Json

mutual

/-- The text of plain data inside other values. -/
def quoted : Json → String
  | .null => "None"
  | .bool b => boolText b
  | .int n => Decimal.intText n
  | .float x => Decimal.floatText x
  | .str s => Text.quote s
  | .list items => "[" ++ ", ".intercalate (quotedItems items) ++ "]"
  | .object entries => "\x7b" ++ ", ".intercalate (quotedEntries entries) ++ "\x7d"

def quotedItems : List Json → List String
  | [] => []
  | j :: js => quoted j :: quotedItems js

def quotedEntries : List (String × Json) → List String
  | [] => []
  | (k, j) :: rest => (Text.quote k ++ ": " ++ quoted j) :: quotedEntries rest

end

def shown : Json → String
  | .str s => s
  | j => j.quoted

mutual

/-- What keeps plain data from being written where lists and mappings may nest `room` deep. -/
def obstacle? (room : Nat) : Json → Option Fault
  | .int n => numeralObstacle? n
  | .list items =>
    match room with
    | 0 => some .deepText
    | room + 1 => obstacleOfItems? room items
  | .object entries =>
    match room with
    | 0 => some .deepText
    | room + 1 => obstacleOfEntries? room entries
  | _ => none

def obstacleOfItems? (room : Nat) : List Json → Option Fault
  | [] => none
  | j :: js => (obstacle? room j).or (obstacleOfItems? room js)

def obstacleOfEntries? (room : Nat) : List (String × Json) → Option Fault
  | [] => none
  | (_, j) :: rest => (obstacle? room j).or (obstacleOfEntries? room rest)

end

/-- The text of plain data inside other values, where there is room for it. -/
def quotedWithin (room : Nat) (j : Json) : Except Fault String :=
  written j.quoted (j.obstacle? room)

def shownWithin (room : Nat) (j : Json) : Except Fault String :=
  written j.shown (j.obstacle? room)

end Json

end ArrayExpr
