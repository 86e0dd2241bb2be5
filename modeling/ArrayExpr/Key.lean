import ArrayExpr.Capability
import ArrayExpr.Tensor.Basic

/-!
Keys of mappings. Numbers of whatever kind are the same key when they are equal; a mapping keeps the
first spelling of a key, and its entries stand in the order in which their keys first came.

A number that is undefined is equal to nothing, yet is the same key as itself. All undefined numbers
that are written in a program are one. Those that a run makes are told apart by marks. The failure value
and the functions that are not written in the program are keys as well, each the same as itself only.
-/

namespace ArrayExpr

/-- An undefined number that a run has made: its mark, and whether it is an element of a tensor or
plain data. -/
structure Undefined where
  mark : Nat
  isElement : Bool
  deriving DecidableEq, Repr

/-- What can be a key. -/
inductive Key where
  | none
  | bool (b : Bool)
  | int (n : Int)
  | float (x : Float)
  | str (s : String)
  | scalar (s : Scalar)
  | undefined (u : Undefined)
  | failure
  | foreign (f : Foreign)

namespace Key

/-- What keys are compared by. -/
inductive Identity where
  | none
  | whole (n : Int)
  | double (x : Decimal.Binary64)
  | text (s : String)
  | undefined (u : Undefined)
  | failure
  | foreign (f : Foreign)
  deriving DecidableEq, Repr

/-- A double is compared by the integer that it equals, if there is one. -/
def Identity.ofFloat (x : Float) : Identity :=
  match Decimal.whole? x with
  | some n => .whole n
  | Option.none => .double (.ofFloat x)

/-- What a key is compared by: numbers of whatever kind by what they equal, all else by itself. -/
def identity : Key → Identity
  | .none => .none
  | .bool b | .scalar (.bool b) => .whole (Cells.bit b)
  | .int n | .scalar (.int _ n) => .whole n
  | .float x | .scalar (.float x) => .ofFloat x
  | .str s => .text s
  | .undefined u => .undefined u
  | .failure => .failure
  | .foreign f => .foreign f

def same (a b : Key) : Bool :=
  a.identity == b.identity

/-- The value of a key. -/
def lookup? {α : Type} (key : Key) (entries : List (Key × α)) : Option α :=
  (entries.find? fun e => e.1.same key).map Prod.snd

/-- Sets the value of a key: a key that is present keeps its place and its spelling. -/
def insert {α : Type} (key : Key) (value : α) : List (Key × α) → List (Key × α)
  | [] => [(key, value)]
  | (k, v) :: rest => if k.same key then (k, value) :: rest else (k, v) :: insert key value rest

/-- Sets the values of several keys, one after the other. -/
def insertAll {α : Type} (news entries : List (Key × α)) : List (Key × α) :=
  news.foldl (fun all e => insert e.1 e.2 all) entries

end Key

end ArrayExpr
