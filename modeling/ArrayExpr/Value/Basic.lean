import ArrayExpr.Fault
import ArrayExpr.Key
import ArrayExpr.Token.Basic

/-!
The values that a program computes with: plain data, tensors and their elements, the stand-in for
the result of a failed call, and functions. A closure refers to the scope it was made in by number.
-/

namespace ArrayExpr

inductive Value where
  | none
  | bool (b : Bool)
  | int (n : Int)
  | float (x : Float)
  | str (s : String)
  | list (items : List Value)
  | dict (entries : List (Key × Value))
  | tensor (t : Tensor)
  | scalar (s : Scalar)
  | undefined (u : Undefined)
  | failure
  | closure (parameter : Json) (body : Token) (scope : Nat)
  | composition (names : List String) (functions : List Value)
  | foreign (f : Foreign)

def Value.isAtom : Value → Bool
  | .none | .bool _ | .int _ | .float _ | .str _ | .tensor _ | .scalar _ | .failure | .foreign _ => true
  | .list _ | .dict _ | .undefined _ | .closure .. | .composition .. => false

inductive Value.BodiesIn (p : Token → Prop) : Value → Prop where
  | atom {v : Value} : v.isAtom = true → BodiesIn p v
  | undefined (u : Undefined) : BodiesIn p (.undefined u)
  | closure (parameter : Json) {body : Token} (scope : Nat) : p body →
      BodiesIn p (.closure parameter body scope)
  | list {items : List Value} : (∀ v ∈ items, BodiesIn p v) → BodiesIn p (.list items)
  | dict {entries : List (Key × Value)} : (∀ e ∈ entries, BodiesIn p e.2) →
      BodiesIn p (.dict entries)
  | composition (names : List String) {functions : List Value} :
      (∀ f ∈ functions, BodiesIn p f) → BodiesIn p (.composition names functions)

/-- The value of a key. -/
def Key.toValue : Key → Value
  | .none => .none
  | .bool b => .bool b
  | .int n => .int n
  | .float x => .float x
  | .str s => .str s
  | .scalar s => .scalar s
  | .undefined u => .undefined u
  | .failure => .failure
  | .foreign f => .foreign f

namespace Value

mutual

/-- The value of plain data. -/
def ofJson : Json → Value
  | .null => .none
  | .bool b => .bool b
  | .int n => .int n
  | .float x => .float x
  | .str s => .str s
  | .list items => .list (ofItems items)
  | .object entries => .dict (ofEntries entries)

def ofItems : List Json → List Value
  | [] => []
  | j :: js => ofJson j :: ofItems js

def ofEntries : List (String × Json) → List (Key × Value)
  | [] => []
  | (k, j) :: rest => (.str k, ofJson j) :: ofEntries rest

end

/-- The name of the type of an element. -/
def scalarType : Kind → String
  | .bool => "numpy.bool"
  | .int .int8 => "numpy.int8"
  | .int .int64 => "numpy.int64"
  | .int .uint64 => "numpy.ulonglong"
  | .float => "numpy.float64"

/-- The name of the type of a value. -/
def typeName : Value → String
  | .none => "NoneType"
  | .bool _ => "bool"
  | .int _ => "int"
  | .float _ => "float"
  | .str _ => "str"
  | .list _ => "list"
  | .dict _ => "dict"
  | .tensor _ => "numpy.ndarray"
  | .scalar s => scalarType s.kind
  | .undefined u => if u.isElement then scalarType .float else "float"
  | .failure => "_Failure"
  | .closure .. => "Closure"
  | .composition .. => "Composition"
  | .foreign _ => "function"

/-- A value as a key. Lists, mappings and tensors can change and are no keys. Neither are closures and
compositions here: they would be told apart by where they were made, which values do not show. -/
def toKey : Value → Except Fault Key
  | .none => .ok .none
  | .bool b => .ok (.bool b)
  | .int n => .ok (.int n)
  | .float x => .ok (.float x)
  | .str s => .ok (.str s)
  | .scalar s => .ok (.scalar s)
  | .undefined u => .ok (.undefined u)
  | .failure => .ok .failure
  | .foreign f => .ok (.foreign f)
  | v => .error (.unhashable v.typeName)

mutual

/-- Plain data in which every undefined number has a mark of its own, counted from a given one, and
the next mark. -/
def marked (mark : Nat) : Value → Value × Nat
  | .float x => if x.isNaN then (.undefined ⟨mark, false⟩, mark + 1) else (.float x, mark)
  | .list items =>
    let (items, next) := markedItems mark items
    (.list items, next)
  | v => (v, mark)

/-- The items of a list, marked one after the other. -/
def markedItems (mark : Nat) : List Value → List Value × Nat
  | [] => ([], mark)
  | v :: vs =>
    let (v, next) := marked mark v
    let (vs, next) := markedItems next vs
    (v :: vs, next)

end

/-- A tensor as a value; without axes it is a single element. -/
def ofResult (t : Tensor) : Value :=
  match t.toScalar? with
  | some s => .scalar s
  | Option.none => .tensor t

end Value

end ArrayExpr
