import ArrayExpr.Tensor.Arithmetic

/-!
Sums and means over all elements. Integers are summed exactly and reduced into the width of the
total. Doubles are summed pairwise in the order in which they lie in memory.
-/

namespace ArrayExpr.Tensor

def reduceName : String := "reduce"

def runningSum (start : Signalled) (xs : List Float) : Signalled :=
  xs.foldl (fun total x => total.plus (.quiet x)) start

/-- Adds up blocks of eight lane by lane. -/
def lanes (blocks : List (List Float)) : List Signalled :=
  match blocks with
  | [] => []
  | first :: rest =>
    rest.foldl (fun sums block => List.zipWith Signalled.plus sums (block.map .quiet))
      (first.map .quiet)

/-- Adds neighbours until one sum is left; `fuel` bounds the number of rounds. -/
def addNeighbours : (fuel : Nat) → List Signalled → Signalled
  | _, [] => .quiet 0.0
  | _, [s] => s
  | 0, _ => .quiet 0.0
  | fuel + 1, sums => addNeighbours fuel (pairs sums)
where
  /-- The sums of neighbours. -/
  pairs : List Signalled → List Signalled
    | a :: b :: rest => a.plus b :: pairs rest
    | rest => rest

/-- The sum of at most 128 doubles: eight interleaved sums, added as neighbours, and then the rest
one by one. Fewer than eight are added from left to right. -/
def blockSum (xs : List Float) : Signalled :=
  if xs.length < 8 then runningSum (.quiet 0.0) xs
  else
    let full := xs.length / 8
    runningSum (addNeighbours 3 (lanes (Shape.rowsOf 8 full xs))) (xs.drop (8 * full))

/-- The pairwise sum of doubles: more than 128 are split at half their number, rounded down to a
multiple of eight. `fuel` bounds the number of splits. -/
def pairwiseSum : (fuel : Nat) → List Float → Signalled
  | 0, xs => runningSum (.quiet 0.0) xs
  | fuel + 1, xs =>
    if xs.length ≤ 128 then blockSum xs
    else
      let half := xs.length / 2
      let cut := half - half % 8
      (pairwiseSum fuel (xs.take cut)).plus (pairwiseSum fuel (xs.drop cut))

def floatSum (xs : List Float) : Signalled :=
  (Signalled.quiet 0.0).plus (pairwiseSum xs.length xs)

def conversionBlock : Nat := 8192

/-- The sum of doubles that were converted from another kind: block after block. -/
def convertedSum (xs : List Float) : Signalled :=
  let blocks := Shape.rowsOf conversionBlock (xs.length / conversionBlock + 1) xs
  blocks.foldl (fun total block => total.plus (pairwiseSum block.length block)) (.quiet 0.0)

/-- The sum of the elements. -/
def sum (t : Tensor) : Except Fault Scalar :=
  match t.cells with
  | .bools xs => .ok (.int .int64 (Width.int64.wrap (xs.foldr (fun x total => Cells.bit x + total) 0)))
  | .ints w xs => .ok (.int w.total (w.total.wrap (xs.foldr (· + ·) 0)))
  | .floats xs =>
    let total := floatSum (Layout.inMemory t.shape t.order xs)
    total.signals.guard reduceName (.float total.value)

def sumAsFloat (t : Tensor) : Signalled :=
  match t.cells with
  | .floats xs => floatSum (Layout.inMemory t.shape t.order xs)
  | cells => convertedSum (Layout.inMemory t.shape t.order cells.toFloats)

/-- The mean of the elements. -/
def mean (t : Tensor) : Except Fault Scalar := do
  let total := t.sumAsFloat
  let sum ← total.signals.guard reduceName total.value
  let quotient := Signalled.divide sum (Decimal.floatOfInt t.size)
  let value ← quotient.signals.guard "scalar divide" quotient.value
  return .float value

end ArrayExpr.Tensor
