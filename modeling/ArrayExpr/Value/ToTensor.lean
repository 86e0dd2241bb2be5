import ArrayExpr.Value.Display

/-!
Tensors from nested lists. A value that is no list has no axes; a list has one axis more than its
items, which have to agree on theirs. Where they do not, the shape up to which they agree is found.
The elements are the leaves from left to right, converted to the join of their kinds.
-/

namespace ArrayExpr

def maxAxes : Nat := 64

def commonPrefix : List Nat → List Nat → List Nat
  | a :: as, b :: bs => if a == b then a :: commonPrefix as bs else []
  | _, _ => []

/-- The shape up to which nested lists agree, and whether they agree in full. -/
structure Extent where
  shape : List Nat
  regular : Bool

/-- The extent of a list of `count` items with these extents. -/
def Extent.ofItems (count : Nat) : List Extent → Extent
  | [] => ⟨[count], true⟩
  | first :: rest =>
    let shape := rest.foldl (fun shape e => commonPrefix shape e.shape) first.shape
    ⟨count :: shape, (first :: rest).all fun e => e.regular && e.shape == shape⟩

namespace Value

mutual

/-- The extent of a value with at most `axes` axes. -/
def extent (axes : Nat) : Value → Extent
  | .list items =>
    match axes with
    | 0 => ⟨[], false⟩
    | axes + 1 => .ofItems items.length (extents axes items)
  | .tensor t =>
    if axes < t.shape.length then ⟨t.shape.take axes, false⟩ else ⟨t.shape, true⟩
  | _ => ⟨[], true⟩

def extents (axes : Nat) : List Value → List Extent
  | [] => []
  | v :: vs => extent axes v :: extents axes vs

end

/-- An integer as an element: the least of the signed and the unsigned width that holds it. -/
def intLeaf? (n : Int) : Option Scalar :=
  if -Int.pow 2 63 ≤ n && n < Int.pow 2 63 then some (.int .int64 n)
  else if 0 ≤ n && n < Int.pow 2 64 then some (.int .uint64 n)
  else Option.none

def joinKinds : Option Kind → Option Kind → Option Kind
  | Option.none, l => l
  | k, Option.none => k
  | some k, some l => some (k.join l)

mutual

/-- The kind and the leaves of nested lists from left to right; nothing when a leaf is not a number
or a truth value. The kind is missing when there is no leaf. -/
def leaves? : Value → Option (Option Kind × List Scalar)
  | .bool b => some (some .bool, [.bool b])
  | .int n => (intLeaf? n).map fun s => (some s.kind, [s])
  | .float x => some (some .float, [.float x])
  | .scalar s => some (some s.kind, [s])
  | .undefined _ => some (some .float, [Undefined.scalar])
  | .tensor t => some (some t.kind, t.cells.scalars)
  | .list items => leavesOf? items
  | _ => Option.none

/-- The kind and the leaves of the items of a list. -/
def leavesOf? : List Value → Option (Option Kind × List Scalar)
  | [] => some (Option.none, [])
  | v :: vs => do
    let (k, xs) ← leaves? v
    let (l, ys) ← leavesOf? vs
    return (joinKinds k l, xs ++ ys)

end

def leafFloat : Scalar → Float
  | .bool b => if b then 1.0 else 0.0
  | .int _ n => Decimal.floatOfInt n
  | .float x => x

/-- An element as an integer; doubles are never converted and count as zero. -/
def leafInt : Scalar → Int
  | .bool b => Cells.bit b
  | .int _ n => n
  | .float _ => 0

def leafBool : Scalar → Bool
  | .bool b => b
  | .int _ n => n != 0
  | .float x => x != 0.0

def cellsOf (kind : Kind) (leaves : List Scalar) : Cells :=
  match kind with
  | .bool => .bools (leaves.map leafBool)
  | .int w => .ints w (leaves.map leafInt)
  | .float => .floats (leaves.map leafFloat)

/-- The tensor that a value stands for. -/
def toTensor (v : Value) : Except Fault Tensor :=
  match v with
  | .tensor t => .ok t
  | v =>
    let extent := v.extent maxAxes
    if !extent.regular then
      if extent.shape.length == maxAxes then .error .tooManyAxes else .error (.ragged extent.shape)
    else
      match v.leaves? with
      | Option.none => do .error (.notTensor (← v.quotedWithin textLimit))
      | some (kind, leaves) =>
        .ok (.ofCells extent.shape (cellsOf (kind.getD .float) leaves))

end Value

def Scalar.toNative : Scalar → Value
  | .bool b => .bool b
  | .int _ n => .int n
  | .float x => .float x

def nest : (shape : List Nat) → List Value → Value
  | [], xs => xs.headD .none
  | n :: rest, xs => .list ((Shape.rowsOf (Shape.count rest) n xs).map (nest rest))

def Tensor.toNative (t : Tensor) : Value :=
  nest t.shape (t.cells.scalars.map Scalar.toNative)

end ArrayExpr
