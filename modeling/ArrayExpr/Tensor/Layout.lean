import ArrayExpr.Tensor.Shape

/-!
Memory layout. The elements of a tensor lie in memory without gaps, in the row-major order of some
permutation of its axes; an order lists the axes from the outermost in memory to the innermost.
Sums of doubles run through memory, so the order of a result decides their last digits.
-/

namespace ArrayExpr.Layout

def rowMajor (rank : Nat) : List Nat :=
  List.range rank

def reversed (order : List Nat) : List Nat :=
  order.map fun axis => order.length - 1 - axis

def stride (shape order : List Nat) (axis : Nat) : Nat :=
  Shape.count (((order.dropWhile (· != axis)).drop 1).map fun a => shape.getD a 1)

/-- The distance along an axis of a stretched shape of the given rank: zero where the operand is
stretched or has length one. -/
def stretchedStride (rank : Nat) (operand : List Nat × List Nat) (axis : Nat) : Nat :=
  let missing := rank - operand.1.length
  if axis < missing || operand.1.getD (axis - missing) 1 == 1 then 0
  else stride operand.1 operand.2 (axis - missing)

/-- What the distances of two axes say about their order in memory. -/
inductive Verdict where
  | unsettled
  | keep
  | swap

/-- Compares the distances along an outer and an inner axis, operand by operand: the first operand
that tells decides on a swap, and any operand that has the axes in order prevents it. -/
def compare (outer inner : List Nat) : Verdict :=
  (outer.zip inner).foldl (fun verdict (o, i) =>
    if o == 0 || i == 0 then verdict
    else if i ≤ o then .keep
    else
      match verdict with
      | .unsettled => .swap
      | settled => settled) .unsettled

/-- How many axes an axis moves inward past: up to the last swap before an axis that keeps it. -/
def moves (strides : Nat → List Nat) (axis : Nat) : List Nat → Nat
  | [] => 0
  | other :: rest =>
    match compare (strides axis) (strides other) with
    | .keep => 0
    | .swap => moves strides axis rest + 1
    | .unsettled =>
      let further := moves strides axis rest
      if further == 0 then 0 else further + 1

/-- The order in memory of the result of an elementwise operation: the axes sorted by the distances
of the operands, the row-major order where these leave it open. -/
def elementwise (rank : Nat) (operands : List (List Nat × List Nat)) : List Nat :=
  let strides axis := operands.map fun operand => stretchedStride rank operand axis
  (List.range rank).reverse.foldl (fun order axis =>
    let n := moves strides axis order
    order.take n ++ axis :: order.drop n) []

/-- Whether the right operand of an elementwise operation stays at one element while the innermost
loop runs. An operand without axes always stays. An operand with axes moves when the other one has
the same shape or no axes. Any other pair is stretched to `shape`, and the loop runs along the
innermost axis whose length is not one. -/
def isSteady (shape : List Nat) (left right : List Nat × List Nat) : Bool :=
  if left.1.isEmpty || right.1.isEmpty || left.1 == right.1 then right.1.isEmpty
  else
    let long := (elementwise shape.length [left, right]).filter fun axis => shape.getD axis 1 != 1
    match long.getLast? with
    | some axis => stretchedStride shape.length right axis == 0
    | none => true

/-- The index of a tensor that an index of its axes in memory order stands for. -/
def logical (order memoryIndex : List Nat) : List Nat :=
  (List.range order.length).map fun axis => memoryIndex.getD (order.idxOf axis) 0

def inMemory {α : Type} (shape order : List Nat) (xs : List α) : List α :=
  if order == rowMajor order.length then xs
  else Shape.gather shape xs (order.map fun axis => shape.getD axis 1) (logical order)

end ArrayExpr.Layout
