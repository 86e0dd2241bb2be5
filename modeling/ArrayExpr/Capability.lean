/-!
The capabilities that a program can call by name, the other functions that are not written in a program,
and the operators that stand for some of the capabilities.
-/

namespace ArrayExpr

inductive Capability where
  | tensor
  | convertToNative
  | negative
  | reciprocal
  | add
  | subtract
  | multiply
  | divide
  | power
  | modulus
  | matrixMultiply
  | mean
  | sum
  | transpose
  | shape
  deriving DecidableEq, Repr

namespace Capability

def all : List Capability :=
  [.tensor, .convertToNative, .negative, .reciprocal, .add, .subtract, .multiply, .divide, .power,
    .modulus, .matrixMultiply, .mean, .sum, .transpose, .shape]

/-- The name by which a program calls a capability. -/
def name : Capability → String
  | .tensor => "Tensor"
  | .convertToNative => "ConvertToNative"
  | .negative => "Negative"
  | .reciprocal => "Reciprocal"
  | .add => "Add"
  | .subtract => "Subtract"
  | .multiply => "Multiply"
  | .divide => "Divide"
  | .power => "Power"
  | .modulus => "Modulus"
  | .matrixMultiply => "MatrixMultiply"
  | .mean => "Mean"
  | .sum => "Sum"
  | .transpose => "Transpose"
  | .shape => "Shape"

def ofName? (name : String) : Option Capability :=
  all.find? fun c => c.name == name

/-- The names of a function and of its parameter in messages about its arguments. -/
def signature : Capability → String × String
  | .tensor => ("tensor", "value")
  | .convertToNative => ("convert_to_native", "value")
  | .negative | .reciprocal | .mean | .sum | .transpose => ("_unary.<locals>.unary", "x")
  | .add | .subtract | .multiply | .divide | .power | .modulus | .matrixMultiply =>
    ("_binary.<locals>.binary", "operands")
  | .shape => ("<lambda>", "x")

end Capability

/-- A function that is not written in the program: a built-in capability, the stand-in for a name
that is not bound, or a function that the host supplies. -/
inductive Foreign where
  | capability (c : Capability)
  | passThrough
  | host (name : String)
  deriving DecidableEq, Repr

/-- The names of a function and of its parameter in messages about its arguments. -/
def Foreign.signature : Foreign → String × String
  | .capability c => c.signature
  | .passThrough => ("pass_through", "arg")
  | .host name => (name, "arg")

/-- A number by which the texts of functions differ even where their names do not. -/
def Foreign.number : Foreign → Nat
  | .host _ => 0
  | .passThrough => 1
  | .capability c => Capability.all.idxOf c + 2

def unaryOperators : List (String × String) :=
  [("'", "ConvertToNative"), ("-", "Negative"), ("/", "Reciprocal")]

def binaryOperators : List (String × String) :=
  [("+", "Add"), ("-", "Subtract"), ("*", "Multiply"), ("×", "Multiply"), ("/", "Divide"),
    ("÷", "Divide"), ("^", "Power"), ("%", "Modulus"), ("@", "MatrixMultiply")]

end ArrayExpr
