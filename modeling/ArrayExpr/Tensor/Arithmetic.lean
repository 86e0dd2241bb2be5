import ArrayExpr.Fault
import ArrayExpr.Tensor.Basic

/-!
Elementwise arithmetic. Operands of compatible shapes are stretched to the common shape and
converted to the common kind. Integers wrap around. Doubles signal when a result is infinite or
undefined though the operands are not; of several signals in one operation the first of division by
zero, overflow and invalid is the fault.
-/

namespace ArrayExpr

/-- The signals met during an operation. -/
structure Signals where
  divideByZero : Bool := false
  overflow : Bool := false
  invalid : Bool := false
  deriving DecidableEq, Repr

namespace Signals

def union (s t : Signals) : Signals :=
  ⟨s.divideByZero || t.divideByZero, s.overflow || t.overflow, s.invalid || t.invalid⟩

def first? (s : Signals) : Option Signal :=
  if s.divideByZero then some .divideByZero
  else if s.overflow then some .overflow
  else if s.invalid then some .invalid
  else none

def guard {α : Type} (s : Signals) (operation : String) (result : α) : Except Fault α :=
  match s.first? with
  | some signal => .error (.signalled signal operation)
  | none => .ok result

end Signals

/-- A double and the signals met in computing it. -/
structure Signalled where
  value : Float
  signals : Signals

namespace Signalled

def quiet (x : Float) : Signalled := ⟨x, {}⟩

/-- The signals of a result that is infinite or undefined though its operands are not. -/
def check (x y result : Float) : Signalled :=
  ⟨result,
    { overflow := result.isInf && x.isFinite && y.isFinite
      invalid := result.isNaN && !x.isNaN && !y.isNaN }⟩

def add (x y : Float) : Signalled := check x y (x + y)

def subtract (x y : Float) : Signalled := check x y (x - y)

def multiply (x y : Float) : Signalled := check x y (x * y)

/-- The quotient of two doubles; a finite number other than zero divided by zero is infinite. -/
def divide (x y : Float) : Signalled :=
  if y == 0.0 && x != 0.0 && x.isFinite then ⟨x / y, { divideByZero := true }⟩
  else check x y (x / y)

/-- The power of two doubles; zero to a negative power is infinite. -/
def power (x y : Float) : Signalled :=
  if x == 0.0 && y < 0.0 && y.isFinite then ⟨x.pow y, { divideByZero := true }⟩
  else check x y (x.pow y)

/-- The power of two doubles where the exponent stays the same. Five exponents stand for an
operation of their own. The square root differs from the power at negative zero, which it keeps,
and at negative infinity, where it is invalid. -/
def steadyPower (x y : Float) : Signalled :=
  if y == -1.0 then divide 1.0 x
  else if y == 0.0 then quiet 1.0
  else if y == 0.5 then check x x x.sqrt
  else if y == 1.0 then quiet x
  else if y == 2.0 then multiply x x
  else power x y

/-- The remainder of a division that rounds down, with the sign of the divisor. -/
def modulus (x y : Float) : Signalled :=
  let r := Decimal.truncatedRemainder x y
  let result :=
    if r.isNaN then r
    else if r == 0.0 then (if Decimal.isNegative y then -0.0 else 0.0)
    else if (y < 0.0) != (r < 0.0) then r + y
    else r
  ⟨if x.isNaN || y.isNaN then x + y else result,
    { invalid := r.isNaN && !x.isNaN && !y.isNaN }⟩

def signalsOf (results : List Signalled) : Signals :=
  results.foldl (fun all r => all.union r.signals) {}

def values (operation : String) (results : List Signalled) : Except Fault (List Float) :=
  (signalsOf results).guard operation (results.map value)

def plus (a b : Signalled) : Signalled :=
  let sum := add a.value b.value
  ⟨sum.value, (a.signals.union b.signals).union sum.signals⟩

end Signalled

/-- The elementwise operations on two tensors. -/
inductive Operation where
  | add
  | subtract
  | multiply
  | divide
  | power
  | modulus
  deriving DecidableEq, Repr

namespace Operation

/-- The name that messages about signals use. -/
def name : Operation → String
  | .add => "add"
  | .subtract => "subtract"
  | .multiply => "multiply"
  | .divide => "divide"
  | .power => "power"
  | .modulus => "remainder"

def kind : Operation → Kind → Except Fault Kind
  | .divide, _ => .ok .float
  | .subtract, .bool => .error .booleanDifference
  | .power, .bool | .modulus, .bool => .ok (.int .int8)
  | _, k => .ok k

/-- The operation on truth values: a sum is an alternative and a product a conjunction. -/
def onBools : Operation → Bool → Bool → Bool
  | .add, a, b => a || b
  | _, a, b => a && b

/-- A power of an integer of a width, by squaring; `fuel` bounds the number of bits of the
exponent. -/
def wrappedPower (w : Width) : (fuel : Nat) → (base : Int) → (exponent : Nat) → Int
  | 0, _, _ => w.wrap 1
  | fuel + 1, base, exponent =>
    if exponent == 0 then w.wrap 1
    else
      let rest := wrappedPower w fuel (w.wrap (base * base)) (exponent / 2)
      if exponent % 2 == 1 then w.wrap (base * rest) else rest

/-- The operation on integers of a width. -/
def onInts (w : Width) : Operation → Int → Int → Int
  | .add, a, b => w.wrap (a + b)
  | .subtract, a, b => w.wrap (a - b)
  | .multiply, a, b => w.wrap (a * b)
  | .power, a, b => wrappedPower w 64 a b.toNat
  | .modulus, a, b => if b == 0 then 0 else w.wrap (a.fmod b)
  | .divide, _, _ => 0

/-- The operation on doubles; `steady` says that the right operand stays the same. -/
def onFloats (steady : Bool) : Operation → Float → Float → Signalled
  | .add => .add
  | .subtract => .subtract
  | .multiply => .multiply
  | .divide => .divide
  | .power => if steady then .steadyPower else .power
  | .modulus => .modulus

def intFault? (op : Operation) (ys : List Int) : Option Fault :=
  match op with
  | .power => if ys.any (· < 0) then some .negativePower else none
  | .modulus => if ys.any (· == 0) then some (.signalled .divideByZero op.name) else none
  | _ => none

/-- The operation on elements of one kind, pair by pair. -/
def onCells (op : Operation) (steady : Bool) : Cells → Cells → Except Fault Cells
  | .bools xs, .bools ys => .ok (.bools (List.zipWith op.onBools xs ys))
  | .ints w xs, .ints _ ys =>
    match op.intFault? ys with
    | some fault => .error fault
    | none => .ok (.ints w (List.zipWith (op.onInts w) xs ys))
  | xs, ys => do
    let values ← Signalled.values op.name
      (List.zipWith (op.onFloats steady) xs.toFloats ys.toFloats)
    return .floats values

/-- The operation on two tensors. -/
def apply (op : Operation) (a b : Tensor) : Except Fault Tensor := do
  let kind ← op.kind (a.kind.join b.kind)
  match Shape.broadcast? a.shape b.shape with
  | none => .error (.incompatible a.shape b.shape)
  | some shape =>
    let xs := (a.cells.move (Shape.stretch a.shape · shape)).cast kind
    let ys := (b.cells.move (Shape.stretch b.shape · shape)).cast kind
    let steady := Layout.isSteady shape (a.shape, a.order) (b.shape, b.order)
    let cells ← op.onCells steady xs ys
    return ⟨shape, cells,
      Layout.elementwise shape.length [(a.shape, a.order), (b.shape, b.order)]⟩

end Operation

namespace Tensor

/-- The negatives of the elements. -/
def negative (t : Tensor) : Except Fault Tensor :=
  let order := Layout.elementwise t.shape.length [(t.shape, t.order)]
  match t.cells with
  | .bools _ => .error .booleanNegative
  | .ints w xs => .ok ⟨t.shape, .ints w (xs.map fun n => w.wrap (-n)), order⟩
  | .floats xs => .ok ⟨t.shape, .floats (xs.map fun x => -x), order⟩

def reciprocal (t : Tensor) : Except Fault Tensor :=
  Operation.divide.apply (.ofScalar (.float 1.0)) t

end Tensor

end ArrayExpr
