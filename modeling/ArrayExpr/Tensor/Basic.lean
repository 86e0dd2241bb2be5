import ArrayExpr.Decimal.Binary64
import ArrayExpr.Tensor.Kind
import ArrayExpr.Tensor.Layout

/-!
Tensors: a shape and as many elements of one kind, listed in row-major order.
-/

namespace ArrayExpr

inductive Scalar where
  | bool (b : Bool)
  | int (width : Width) (n : Int)
  | float (x : Float)

def Scalar.kind : Scalar → Kind
  | .bool _ => .bool
  | .int w _ => .int w
  | .float _ => .float

/-- A list of elements of one kind. -/
inductive Cells where
  | bools (xs : List Bool)
  | ints (width : Width) (xs : List Int)
  | floats (xs : List Float)

namespace Cells

def kind : Cells → Kind
  | .bools _ => .bool
  | .ints w _ => .int w
  | .floats _ => .float

def length : Cells → Nat
  | .bools xs => xs.length
  | .ints _ xs => xs.length
  | .floats xs => xs.length

def scalars : Cells → List Scalar
  | .bools xs => xs.map .bool
  | .ints w xs => xs.map (.int w)
  | .floats xs => xs.map .float

def move (f : {α : Type} → List α → List α) : Cells → Cells
  | .bools xs => .bools (f xs)
  | .ints w xs => .ints w (f xs)
  | .floats xs => .floats (f xs)

def bit (b : Bool) : Int := if b then 1 else 0

/-- The elements as integers of a width. Doubles are never converted to integers; they count as
zero here. -/
def toInts (w : Width) : Cells → List Int
  | .bools xs => xs.map fun b => w.wrap (bit b)
  | .ints _ xs => xs.map w.wrap
  | .floats xs => xs.map fun _ => 0

def toFloats : Cells → List Float
  | .bools xs => xs.map fun b => if b then 1.0 else 0.0
  | .ints _ xs => xs.map Decimal.floatOfInt
  | .floats xs => xs

/-- The elements as truth values: whether they differ from zero. -/
def toBools : Cells → List Bool
  | .bools xs => xs
  | .ints _ xs => xs.map (· != 0)
  | .floats xs => xs.map (· != 0.0)

def cast : Kind → Cells → Cells
  | .bool, cells => .bools cells.toBools
  | .int w, cells => .ints w (cells.toInts w)
  | .float, cells => .floats cells.toFloats

end Cells

/-- A tensor: the lengths of its axes, its elements in row-major order, and the order of its axes in
memory. -/
structure Tensor where
  shape : List Nat
  cells : Cells
  order : List Nat

namespace Tensor

def kind (t : Tensor) : Kind := t.cells.kind

def size (t : Tensor) : Nat := Shape.count t.shape

def ofCells (shape : List Nat) (cells : Cells) : Tensor :=
  ⟨shape, cells, Layout.rowMajor shape.length⟩

/-- A tensor without axes. -/
def ofScalar (s : Scalar) : Tensor :=
  ofCells [] <|
    match s with
    | .bool b => .bools [b]
    | .int w n => .ints w [n]
    | .float x => .floats [x]

def toScalar? (t : Tensor) : Option Scalar :=
  if t.shape.isEmpty then t.cells.scalars.head? else none

def transpose (t : Tensor) : Tensor :=
  ⟨t.shape.reverse, t.cells.move (Shape.reverseAxes t.shape), Layout.reversed t.order⟩

/-- The parts of a tensor along its first axis; a tensor without axes has none. -/
def rows (t : Tensor) : List Tensor :=
  match t.shape with
  | [] => []
  | n :: rest =>
    let size := Shape.count rest
    let order := (t.order.filter (· != 0)).map (· - 1)
    (List.range n).map fun i =>
      ⟨rest, t.cells.move fun xs => (xs.drop (i * size)).take size, order⟩

end Tensor

end ArrayExpr
