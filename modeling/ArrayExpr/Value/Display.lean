import ArrayExpr.Json.Display
import ArrayExpr.Tensor.Text
import ArrayExpr.Value.Basic

/-!
The texts of values. `shown` is the text of a value by itself, `quoted` its text inside other values
and in messages; they differ for text, tensors and single elements. As with plain data, something may
keep a value from being written.
-/

namespace ArrayExpr

def Foreign.text (f : Foreign) : String :=
  "<function " ++ f.signature.1 ++ " at 0x" ++ Text.hex 1 f.number ++ ">"

def failureText : String := "ERROR"

def Scalar.quoted : Scalar → String
  | .bool b => "np." ++ boolText b ++ "_"
  | s => "np." ++ s.kind.name ++ "(" ++ Tensor.scalarText s ++ ")"

def Undefined.scalar : Scalar := .float Decimal.Binary64.nan.toFloat

def Undefined.quoted (u : Undefined) : String :=
  if u.isElement then scalar.quoted else Tensor.scalarText scalar

namespace Key

/-- The text of a key inside a mapping. -/
def quoted : Key → String
  | .none => "None"
  | .bool b => boolText b
  | .int n => Decimal.intText n
  | .float x => Decimal.floatText x
  | .str s => Text.quote s
  | .scalar s => s.quoted
  | .undefined u => u.quoted
  | .failure => failureText
  | .foreign f => f.text

def shown : Key → String
  | .str s => s
  | .scalar s => Tensor.scalarText s
  | .undefined _ => Tensor.scalarText Undefined.scalar
  | k => k.quoted

def obstacle? : Key → Option Fault
  | .int n => numeralObstacle? n
  | _ => Option.none

end Key

namespace Value

mutual

/-- The text of a value inside other values. -/
def quoted : Value → String
  | .none => "None"
  | .bool b => boolText b
  | .int n => Decimal.intText n
  | .float x => Decimal.floatText x
  | .str s => Text.quote s
  | .list items => "[" ++ ", ".intercalate (quotedItems items) ++ "]"
  | .dict entries => "\x7b" ++ ", ".intercalate (quotedEntries entries) ++ "\x7d"
  | .tensor t => t.quoted
  | .scalar s => s.quoted
  | .undefined u => u.quoted
  | .failure => failureText
  | .closure parameter body _ => "<Closure " ++ parameter.shown ++ " -> " ++ body.kind ++ ">"
  | .composition names _ => "<Composition " ++ " ∘ ".intercalate names ++ ">"
  | .foreign f => f.text

def quotedItems : List Value → List String
  | [] => []
  | v :: vs => quoted v :: quotedItems vs

def quotedEntries : List (Key × Value) → List String
  | [] => []
  | (k, v) :: rest => (k.quoted ++ ": " ++ quoted v) :: quotedEntries rest

end

/-- The text of a value by itself. -/
def shown : Value → String
  | .str s => s
  | .tensor t => t.shown
  | .scalar s => Tensor.scalarText s
  | .undefined _ => Tensor.scalarText Undefined.scalar
  | v => v.quoted

mutual

/-- What keeps a value from being written where lists and mappings may nest `room` deep. -/
def obstacle? (room : Nat) : Value → Option Fault
  | .int n => numeralObstacle? n
  | .list items =>
    match room with
    | 0 => some .deepText
    | room + 1 => obstacleOfItems? room items
  | .dict entries =>
    match room with
    | 0 => some .deepText
    | room + 1 => obstacleOfEntries? room entries
  | .closure parameter _ _ => parameter.obstacle? room
  | _ => Option.none

def obstacleOfItems? (room : Nat) : List Value → Option Fault
  | [] => Option.none
  | v :: vs => (obstacle? room v).or (obstacleOfItems? room vs)

def obstacleOfEntries? (room : Nat) : List (Key × Value) → Option Fault
  | [] => Option.none
  | (k, v) :: rest => (k.obstacle?.or (obstacle? room v)).or (obstacleOfEntries? room rest)

end

/-- The text of a value inside other values, where there is room for it. -/
def quotedWithin (room : Nat) (v : Value) : Except Fault String :=
  written v.quoted (v.obstacle? room)

def shownWithin (room : Nat) (v : Value) : Except Fault String :=
  written v.shown (v.obstacle? room)

end Value

end ArrayExpr
