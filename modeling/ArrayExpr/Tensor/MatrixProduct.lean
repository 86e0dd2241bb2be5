import ArrayExpr.Tensor.Arithmetic

/-!
Matrix products. The last two axes are rows and columns; leading axes are stretched to a common
shape. An operand with one axis counts as a row on the left and as a column on the right, and the
added axis is dropped from the result.
-/

namespace ArrayExpr.Tensor

def productName : String := "matmul"

/-- An operand of a product: leading axes, rows and columns. -/
structure MatrixShape where
  batch : List Nat
  rows : Nat
  columns : Nat

/-- The shape of a left operand; a single axis is a row. -/
def leftMatrix? (shape : List Nat) : Option MatrixShape :=
  match shape.reverse with
  | [] => none
  | [n] => some ⟨[], 1, n⟩
  | n :: m :: batch => some ⟨batch.reverse, m, n⟩

/-- The shape of a right operand; a single axis is a column. -/
def rightMatrix? (shape : List Nat) : Option MatrixShape :=
  match shape.reverse with
  | [] => none
  | [n] => some ⟨[], n, 1⟩
  | n :: m :: batch => some ⟨batch.reverse, m, n⟩

/-- The elements of the rows of one operand and the columns of the other that meet at every index of
the result. -/
def meetings {α : Type} (a b : MatrixShape) (batch : List Nat) (xs ys : List α) :
    List (List (α × α)) :=
  let left := xs.toArray
  let right := ys.toArray
  let leftShape := a.batch ++ [a.rows, a.columns]
  let rightShape := b.batch ++ [b.rows, b.columns]
  (Shape.indices batch).flatMap fun index =>
    let leftIndex := Shape.project a.batch index
    let rightIndex := Shape.project b.batch index
    (List.range a.rows).flatMap fun i =>
      (List.range b.columns).map fun j =>
        (List.range a.columns).filterMap fun k => do
          let x ← left[Shape.offset leftShape (leftIndex ++ [i, k])]?
          let y ← right[Shape.offset rightShape (rightIndex ++ [k, j])]?
          return (x, y)

def floatDot (pairs : List (Float × Float)) : Signalled :=
  pairs.foldl (fun total (x, y) => total.plus (.multiply x y)) (.quiet 0.0)

def intDot (w : Width) (pairs : List (Int × Int)) : Int :=
  w.wrap (pairs.foldr (fun (x, y) total => x * y + total) 0)

/-- The elements of a product of operands of one kind. -/
def productCells (a b : MatrixShape) (batch : List Nat) : Cells → Cells → Except Fault Cells
  | .bools xs, .bools ys =>
    .ok (.bools ((meetings a b batch xs ys).map fun pairs => pairs.any fun (x, y) => x && y))
  | .ints w xs, .ints _ ys => .ok (.ints w ((meetings a b batch xs ys).map (intDot w)))
  | xs, ys => do
    let values ← Signalled.values productName
      ((meetings a b batch xs.toFloats ys.toFloats).map floatDot)
    return .floats values

/-- The matrix product. -/
def product (a b : Tensor) : Except Fault Tensor :=
  match leftMatrix? a.shape, rightMatrix? b.shape with
  | none, _ => .error (.tooFewAxes 0)
  | _, none => .error (.tooFewAxes 1)
  | some left, some right =>
    if left.columns != right.rows then .error (.innerMismatch right.rows left.columns)
    else
      match Shape.broadcast? left.batch right.batch with
      | none => .error (.batchMismatch a.shape b.shape)
      | some batch => do
        let kind := a.kind.join b.kind
        let cells ← productCells left right batch (a.cells.cast kind) (b.cells.cast kind)
        let rows := if a.shape.length == 1 then [] else [left.rows]
        let columns := if b.shape.length == 1 then [] else [right.columns]
        return .ofCells (batch ++ rows ++ columns) cells

end ArrayExpr.Tensor
