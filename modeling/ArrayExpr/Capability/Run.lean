import ArrayExpr.Tensor.MatrixProduct
import ArrayExpr.Tensor.Reduce
import ArrayExpr.Value.ToTensor

/-!
What the capabilities compute. Those with two operands take a mapping with the entries `a` and `b`;
all others take their operand itself.
-/

namespace ArrayExpr.Capability

/-- The name of an operation in the message about its operands. -/
def operandName : Capability → String
  | .add => "add"
  | .subtract => "subtract"
  | .multiply => "multiply"
  | .divide => "_divide"
  | .power => "power"
  | .modulus => "_modulus"
  | .matrixMultiply => "_matrix_multiply"
  | c => c.name

/-- The two operands of an operation. -/
def operands (c : Capability) (argument : Value) : Except Fault (Value × Value) :=
  match argument with
  | .dict entries =>
    match Key.lookup? (.str "a") entries, Key.lookup? (.str "b") entries with
    | some a, some b => .ok (a, b)
    | _, _ => .error (.notOperands c.operandName)
  | .tensor _ => .error .tensorIndex
  | .scalar _ | .undefined ⟨_, true⟩ => .error .scalarIndex
  | _ => .error (.notOperands c.operandName)

/-- Applies an operation on two tensors. -/
def onPair (c : Capability) (f : Tensor → Tensor → Except Fault Tensor) (argument : Value) :
    Except Fault Value := do
  let (a, b) ← c.operands argument
  let x ← a.toTensor
  let y ← b.toTensor
  let result ← f x y
  return .ofResult result

def onOne (f : Tensor → Except Fault Value) (argument : Value) : Except Fault Value := do
  let x ← argument.toTensor
  f x

/-- What a capability gives for its argument. -/
def run (c : Capability) : Value → Except Fault Value :=
  match c with
  | .tensor => onOne fun x => .ok (.tensor x)
  | .convertToNative => onOne fun x => .ok x.toNative
  | .negative => onOne fun x => do return .ofResult (← x.negative)
  | .reciprocal => onOne fun x => do return .ofResult (← x.reciprocal)
  | .add => c.onPair Operation.add.apply
  | .subtract => c.onPair Operation.subtract.apply
  | .multiply => c.onPair Operation.multiply.apply
  | .divide => c.onPair Operation.divide.apply
  | .power => c.onPair Operation.power.apply
  | .modulus => c.onPair Operation.modulus.apply
  | .matrixMultiply => c.onPair Tensor.product
  | .mean => onOne fun x => do return .scalar (← x.mean)
  | .sum => onOne fun x => do return .scalar (← x.sum)
  | .transpose => onOne fun x => .ok (.tensor x.transpose)
  | .shape => onOne fun x => .ok (.list (x.shape.map fun n : Nat => .int n))

end ArrayExpr.Capability
