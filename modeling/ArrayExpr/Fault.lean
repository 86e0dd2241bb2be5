import ArrayExpr.Json.Reader
import ArrayExpr.Tensor.Shape
import ArrayExpr.Text.Quoted
import ArrayExpr.Text.Utf8

/-!
Everything that can go wrong, by cause. `Fault.message` holds every wording, and `Fault.className` the
class of exceptions that a cause belongs to.
-/

namespace ArrayExpr

/-- What arithmetic on doubles, or an integer division, can signal. -/
inductive Signal where
  | divideByZero
  | overflow
  | invalid
  deriving DecidableEq, Repr

def Signal.text : Signal → String
  | .divideByZero => "divide by zero"
  | .overflow => "overflow"
  | .invalid => "invalid value"

/-- The words for a defect of a JSON text. -/
def Json.Defect.text : Json.Defect → String
  | .byteOrderMark => "Unexpected UTF-8 BOM (decode using utf-8-sig)"
  | .value => "Expecting value"
  | .name => "Expecting property name enclosed in double quotes"
  | .colon => "Expecting ':' delimiter"
  | .comma => "Expecting ',' delimiter"
  | .extra => "Extra data"
  | .unterminated => "Unterminated string starting at"
  | .control => "Invalid control character at"
  | .escape => "Invalid \\escape"
  | .unicodeEscape => "Invalid \\uXXXX escape"

def Text.Utf8.Reason.text : Text.Utf8.Reason → String
  | .invalidStart => "invalid start byte"
  | .invalidContinuation => "invalid continuation byte"
  | .unexpectedEnd => "unexpected end of data"

abbrev ClassName := { name : String // name ≠ "" }

inductive Fault where
  /-- A value of this type was asked for its members. -/
  | notIterable (type : String)
  /-- The member at this position of a sequence of pairs has no members. -/
  | notSequence (position : Nat)
  /-- The member at this position of a sequence of pairs does not have two members. -/
  | notPair (position length : Nat)
  /-- A tensor without axes was asked for its rows. -/
  | noRows
  /-- A value of this type was used as a key. -/
  | unhashable (type : String)
  /-- A value of this type was called. -/
  | notCallable (type : String)
  /-- A function was called without its argument. -/
  | missingArgument (function parameter : String)
  /-- A function was called with too many arguments. -/
  | surplusArguments (function : String) (takes given : Nat)
  /-- A name is not bound. -/
  | missingKey (quoted : String)
  /-- A value of this type was asked for an entry. -/
  | noEntries (type : String)
  /-- Something other than a mapping stands for an environment. -/
  | notEnvironment (shown : String)
  /-- A composition has not as many names as functions. -/
  | unequalNames
  /-- A function supplied from outside failed. -/
  | raised (kind : ClassName) (message : String)
  /-- The nesting limit was met. -/
  | tooDeep
  /-- A value nests too deep to be written. -/
  | deepText
  /-- A whole number has too many digits to be written. -/
  | longNumeral
  /-- A text is no whole number. -/
  | notNumeral (quoted : String)
  /-- A whole number has too many digits. -/
  | tooManyDigits (count : Nat)
  /-- A value of this type is no number. -/
  | notNumber (type : String)
  /-- An infinite number has no integer part. -/
  | infiniteNumber
  /-- What is not a number has no integer part. -/
  | undefinedNumber
  /-- A value is not a mapping with a type tag. -/
  | untagged (shown : String)
  /-- The location of a token cannot be read. -/
  | badLocation (shown kind : String)
  /-- A token lacks one of its fields. -/
  | lacksField (kind field : String)
  /-- A text is not JSON. -/
  | badJson (reason : Json.Defect) (place : Json.Place)
  /-- A string of a JSON text holds half of a character. -/
  | halfCharacter
  /-- A value does not stand for a tensor. -/
  | notTensor (shown : String)
  /-- Nested lists agree on this shape only. -/
  | ragged (shape : List Nat)
  /-- Nested lists have too many levels. -/
  | tooManyAxes
  /-- Truth values have no difference. -/
  | booleanDifference
  /-- Truth values have no negative. -/
  | booleanNegative
  /-- An integer was raised to a negative power. -/
  | negativePower
  /-- An operation signalled. -/
  | signalled (signal : Signal) (operation : String)
  /-- Two shapes are not compatible. -/
  | incompatible (left right : List Nat)
  /-- The argument of an operation is not a pair of operands. -/
  | notOperands (operation : String)
  /-- A tensor was asked for an entry by name. -/
  | tensorIndex
  /-- A single element was asked for an entry. -/
  | scalarIndex
  /-- An operand of a matrix product has no axes. -/
  | tooFewAxes (operand : Nat)
  /-- The inner lengths of a matrix product differ. -/
  | innerMismatch (right left : Nat)
  /-- The leading axes of a matrix product are not compatible. -/
  | batchMismatch (left right : List Nat)
  /-- There is no such file. -/
  | noSuchFile (path : String)
  /-- A path leads through a file. -/
  | notDirectory (path : String)
  /-- A path names a directory. -/
  | isDirectory (path : String)
  /-- A path, or a step of it, is too long. -/
  | pathTooLong (path : String)
  /-- A path holds a null character. -/
  | nullInPath
  /-- A file is not text. -/
  | notText (defect : Text.Utf8.Defect)
  deriving DecidableEq, Repr

namespace Fault

def productSignature : String :=
  "(n?,k),(k,m?)->(n?,m?)"

/-- The shape of an operand of a matrix product, and the part of it that is stretched. -/
def batchText (shape : List Nat) : String :=
  let batch := (shape.take (shape.length - 2)).map fun n : Nat => Decimal.intText n
  Shape.text shape ++ "->(" ++ ",".intercalate (batch ++ ["newaxis", "newaxis"]) ++ ") "

/-- The lengths of the two last axes of the result of a matrix product. -/
def productTail (left right : List Nat) : List Nat :=
  [left.getD (left.length - 2) 0, right.getD (right.length - 1) 0]

def countText (n : Nat) : String :=
  Decimal.intText n ++ " positional argument" ++ if n == 1 then "" else "s"

def rangeText (d : Text.Utf8.Defect) : String :=
  if d.stop == d.start + 1 then
    "byte 0x" ++ Text.hex 2 d.byte ++ " in position " ++ Decimal.intText d.start
  else
    "bytes in position " ++ Decimal.intText d.start ++ "-" ++ Decimal.intText (d.stop - 1 : Nat)

/-- The wording of a cause. -/
def message : Fault → String
  | notIterable type => "'" ++ type ++ "' object is not iterable"
  | notSequence i =>
    "cannot convert dictionary update sequence element #" ++ Decimal.intText i ++ " to a sequence"
  | notPair i n =>
    "dictionary update sequence element #" ++ Decimal.intText i ++ " has length " ++
      Decimal.intText n ++ "; 2 is required"
  | noRows => "iteration over a 0-d array"
  | unhashable type => "unhashable type: '" ++ type ++ "'"
  | notCallable type => "'" ++ type ++ "' object is not callable"
  | missingArgument f p => f ++ "() missing 1 required positional argument: '" ++ p ++ "'"
  | surplusArguments f takes given =>
    f ++ "() takes " ++ countText takes ++ " but " ++ Decimal.intText given ++ " were given"
  | missingKey quoted => quoted
  | noEntries type => "'" ++ type ++ "' object has no attribute 'get'"
  | notEnvironment shown => shown
  | unequalNames => ""
  | raised _ text => text
  | tooDeep | deepText => "maximum recursion depth exceeded"
  | longNumeral =>
    "Exceeds the limit (4300 digits) for integer string conversion; use " ++
      "sys.set_int_max_str_digits() to increase the limit"
  | notNumeral quoted => "invalid literal for int() with base 10: " ++ quoted
  | tooManyDigits n =>
    "Exceeds the limit (4300 digits) for integer string conversion: value has " ++
      Decimal.intText n ++ " digits; use sys.set_int_max_str_digits() to increase the limit"
  | notNumber type =>
    "int() argument must be a string, a bytes-like object or a real number, not '" ++ type ++ "'"
  | infiniteNumber => "cannot convert float infinity to integer"
  | undefinedNumber => "cannot convert float NaN to integer"
  | untagged shown => "Expected a mapping with a 'type' tag, got " ++ shown
  | badLocation shown kind => "Bad location " ++ shown ++ " on " ++ kind ++ " token"
  | lacksField kind field => kind ++ " token lacks field " ++ Text.quote field
  | badJson reason p =>
    reason.text ++ ": line " ++ Decimal.intText p.line ++ " column " ++ Decimal.intText p.column ++
      " (char " ++ Decimal.intText p.offset ++ ")"
  | halfCharacter => "surrogates not allowed"
  | notTensor shown => "Cannot make a tensor from " ++ shown ++ "."
  | ragged shape =>
    "setting an array element with a sequence. The requested array has an inhomogeneous shape after "
      ++ Decimal.intText shape.length ++ " dimensions. The detected shape was " ++
      Shape.spacedText shape ++ " + inhomogeneous part."
  | tooManyAxes =>
    "setting an array element with a sequence. The requested array would exceed the maximum number " ++
      "of dimension of 64."
  | booleanDifference =>
    "numpy boolean subtract, the `-` operator, is not supported, use the bitwise_xor, the `^` " ++
      "operator, or the logical_xor function instead."
  | booleanNegative =>
    "The numpy boolean negative, the `-` operator, is not supported, use the `~` operator or the " ++
      "logical_not function instead."
  | negativePower => "Integers to negative integer powers are not allowed."
  | signalled signal operation => signal.text ++ " encountered in " ++ operation
  | incompatible a b =>
    "operands could not be broadcast together with shapes " ++ Shape.text a ++ " " ++
      Shape.text b ++ " "
  | notOperands operation => operation ++ " needs a left and a right operand."
  | tensorIndex =>
    "only integers, slices (`:`), ellipsis (`...`), numpy.newaxis (`None`) and integer or boolean " ++
      "arrays are valid indices"
  | scalarIndex => "invalid index to scalar variable."
  | tooFewAxes operand =>
    "matmul: Input operand " ++ Decimal.intText operand ++
      " does not have enough dimensions (has 0, gufunc core with signature " ++ productSignature ++
      " requires 1)"
  | innerMismatch right left =>
    "matmul: Input operand 1 has a mismatch in its core dimension 0, with gufunc signature " ++
      productSignature ++ " (size " ++ Decimal.intText right ++ " is different from " ++
      Decimal.intText left ++ ")"
  | batchMismatch a b =>
    "operands could not be broadcast together with remapped shapes [original->remapped]: " ++
      batchText a ++ batchText b ++ " and requested shape " ++ Shape.text (productTail a b)
  | noSuchFile path => "[Errno 2] No such file or directory: " ++ Text.quote path
  | notDirectory path => "[Errno 20] Not a directory: " ++ Text.quote path
  | isDirectory path => "[Errno 21] Is a directory: " ++ Text.quote path
  | pathTooLong path => "[Errno 36] File name too long: " ++ Text.quote path
  | nullInPath => "embedded null byte"
  | notText d => "'utf-8' codec can't decode " ++ rangeText d ++ ": " ++ d.reason.text

/-- The class of exceptions that a cause belongs to. -/
def className : Fault → String
  | notIterable _ | notSequence _ | noRows | unhashable _ | notCallable _ | missingArgument ..
  | surplusArguments .. | notNumber _ | notTensor _ | booleanDifference | booleanNegative
  | notOperands _ => "TypeError"
  | notPair .. | notNumeral _ | tooManyDigits _ | longNumeral | undefinedNumber | ragged _
  | tooManyAxes | negativePower | incompatible .. | tooFewAxes _ | innerMismatch ..
  | batchMismatch .. | nullInPath => "ValueError"
  | missingKey _ => "KeyError"
  | noEntries _ => "AttributeError"
  | notEnvironment _ | unequalNames => "AssertionError"
  | raised kind _ => kind.1
  | tooDeep | deepText => "RecursionError"
  | infiniteNumber => "OverflowError"
  | untagged _ | badLocation .. | lacksField .. => "MalformedToken"
  | badJson .. => "JSONDecodeError"
  | halfCharacter => "UnicodeEncodeError"
  | signalled .. => "FloatingPointError"
  | tensorIndex | scalarIndex => "IndexError"
  | noSuchFile _ => "FileNotFoundError"
  | notDirectory _ => "NotADirectoryError"
  | isDirectory _ => "IsADirectoryError"
  | pathTooLong _ => "OSError"
  | notText _ => "UnicodeDecodeError"

/-- What an issue says of a cause: its wording, or the name of its class where it has none. -/
def report (f : Fault) : String :=
  if f.message.isEmpty then f.className else f.message

/-- Whether a limit on nesting was met, by an evaluation or a call or by a text. -/
def isTooDeep : Fault → Bool
  | tooDeep | deepText => true
  | _ => false

end Fault

end ArrayExpr
