/-!
The kinds of tensor elements: truth values, integers of three widths and doubles. Two kinds have a
join, the kind to which both convert.
-/

namespace ArrayExpr

inductive Width where
  | int8
  | int64
  | uint64
  deriving DecidableEq, Repr

/-- Reduces an integer into the range of a width. -/
def Width.wrap : Width → Int → Int
  | .int8, n => n.bmod (Nat.pow 2 8)
  | .int64, n => n.bmod (Nat.pow 2 64)
  | .uint64, n => n.emod (Int.pow 2 64)

/-- The integers of a width. -/
def Width.InRange : Width → Int → Prop
  | .int8, n => -Int.pow 2 7 ≤ n ∧ n < Int.pow 2 7
  | .int64, n => -Int.pow 2 63 ≤ n ∧ n < Int.pow 2 63
  | .uint64, n => 0 ≤ n ∧ n < Int.pow 2 64

inductive Kind where
  | bool
  | int (width : Width)
  | float
  deriving DecidableEq, Repr

namespace Kind

/-- The name of a kind. -/
def name : Kind → String
  | .bool => "bool"
  | .int .int8 => "int8"
  | .int .int64 => "int64"
  | .int .uint64 => "uint64"
  | .float => "float64"

/-- The kind to which both kinds convert. Signed and unsigned integers meet in the doubles. -/
def join : Kind → Kind → Kind
  | .bool, k => k
  | k, .bool => k
  | .float, _ => .float
  | _, .float => .float
  | .int .int8, .int .int8 => .int .int8
  | .int .uint64, .int .uint64 => .int .uint64
  | .int .uint64, .int _ => .float
  | .int _, .int .uint64 => .float
  | .int _, .int _ => .int .int64

end Kind

/-- The width of the kind in which truth values and integers are counted up. -/
def Width.total : Width → Width
  | .uint64 => .uint64
  | _ => .int64

end ArrayExpr
