import ArrayExpr.Decimal.Notation

/-!
Shapes and indices. A shape lists the lengths of the axes, outermost first; the elements of a tensor
are listed in row-major order, the last axis running fastest. Two shapes are compatible when,
aligned at the last axis, each pair of lengths is equal or one of them is one.
-/

namespace ArrayExpr.Shape

def count (shape : List Nat) : Nat :=
  shape.foldr (· * ·) 1

def indices : List Nat → List (List Nat)
  | [] => [[]]
  | n :: rest => (List.range n).flatMap fun i => (indices rest).map (i :: ·)

def offset : (shape index : List Nat) → Nat
  | n :: rest, i :: is => i % n * count rest + offset rest is
  | _, _ => 0

def padded (rank : Nat) (shape : List Nat) : List Nat :=
  List.replicate (rank - shape.length) 1 ++ shape

def meet? (m n : Nat) : Option Nat :=
  if m == n then some m
  else if m == 1 then some n
  else if n == 1 then some m
  else none

/-- The lengths of aligned axes when two shapes meet. -/
def meetAll? : (a b : List Nat) → Option (List Nat)
  | m :: a, n :: b => do
    let length ← meet? m n
    let rest ← meetAll? a b
    return length :: rest
  | _, _ => some []

/-- The shape to which both shapes stretch. -/
def broadcast? (a b : List Nat) : Option (List Nat) :=
  let rank := max a.length b.length
  meetAll? (padded rank a) (padded rank b)

/-- The index of a shape that an index of a stretched shape reads: missing axes are dropped and
axes of length one are read at zero. -/
def project (shape index : List Nat) : List Nat :=
  List.zipWith (fun n i => if n == 1 then 0 else i) shape
    (index.drop (index.length - shape.length))

/-- Reads elements in row-major order at the indices of another shape. -/
def gather {α : Type} (shape : List Nat) (xs : List α) (target : List Nat)
    (read : List Nat → List Nat) : List α :=
  let cells := xs.toArray
  (indices target).filterMap fun index => cells[offset shape (read index)]?

/-- The elements stretched to a shape that the given one stretches to. -/
def stretch {α : Type} (shape : List Nat) (xs : List α) (target : List Nat) : List α :=
  gather shape xs target (project shape)

def reverseAxes {α : Type} (shape : List Nat) (xs : List α) : List α :=
  gather shape xs shape.reverse List.reverse

def rowsOf {α : Type} (size : Nat) : (count : Nat) → List α → List (List α)
  | 0, _ => []
  | count + 1, xs => xs.take size :: rowsOf size count (xs.drop size)

def text (shape : List Nat) : String :=
  match shape with
  | [n] => "(" ++ Decimal.intText n ++ ",)"
  | _ => "(" ++ ",".intercalate (shape.map fun n : Nat => Decimal.intText n) ++ ")"

/-- A shape in brackets, with a comma and a blank between the lengths. -/
def spacedText (shape : List Nat) : String :=
  match shape with
  | [n] => "(" ++ Decimal.intText n ++ ",)"
  | _ => "(" ++ ", ".intercalate (shape.map fun n : Nat => Decimal.intText n) ++ ")"

end ArrayExpr.Shape
