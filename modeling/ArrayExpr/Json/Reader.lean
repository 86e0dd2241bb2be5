import ArrayExpr.Decimal.Binary64
import ArrayExpr.Json.Basic

/-!
Reading JSON. Besides the standard grammar the names `NaN`, `Infinity` and `-Infinity` are numbers.
A text that cannot be read has a first defect and the place of it. Containers may nest to a fixed
depth, and a whole number may have a fixed number of digits. Strings are sequences of characters, so the
two escapes of a character beyond the basic plane belong together: one of them alone is not read.
-/

namespace ArrayExpr.Json

/-- What is wrong with a text. -/
inductive Defect where
  | byteOrderMark
  | value
  | name
  | colon
  | comma
  | extra
  | unterminated
  | control
  | escape
  | unicodeEscape
  deriving DecidableEq, Repr

/-- Why reading stops: a defect in front of the rest of the text, a number with too many digits,
containers nested too deeply, or half of a character. -/
inductive Stop where
  | defect (reason : Defect) (rest : List Char)
  | digits (count : Nat)
  | depth
  | half

/-- How deep containers may nest. -/
def nestingLimit : Nat := 990

/-- How many digits a whole number may have. -/
def digitLimit : Nat := 4300

def isSpace (c : Char) : Bool :=
  c == ' ' || c == '\t' || c == '\n' || c == '\r'

def skipSpace (cs : List Char) : List Char :=
  cs.dropWhile isSpace

def hexValue? (c : Char) : Option Nat :=
  if c.isDigit then some (c.toNat - 48)
  else if 'a' ≤ c && c ≤ 'f' then some (c.toNat - 87)
  else if 'A' ≤ c && c ≤ 'F' then some (c.toNat - 55)
  else none

/-- The value of four hexadecimal digits. -/
def hexUnit? (a b c d : Char) : Option Nat := do
  let a ← hexValue? a
  let b ← hexValue? b
  let c ← hexValue? c
  let d ← hexValue? d
  return ((a * 16 + b) * 16 + c) * 16 + d

/-- The character that a backslash and a letter stand for. -/
def escaped? (c : Char) : Option Char :=
  if c == '"' || c == '\\' || c == '/' then some c
  else if c == 'b' then some '\x08'
  else if c == 'f' then some '\x0c'
  else if c == 'n' then some '\n'
  else if c == 'r' then some '\r'
  else if c == 't' then some '\t'
  else none

/-- Reads the units of a string up to its closing quote; `opening` starts at the opening quote. -/
def units (opening : List Char) : List Char → Except Stop (List Nat × List Char)
  | [] => .error (.defect .unterminated opening)
  | c :: cs =>
    if c == '"' then .ok ([], cs)
    else if c == '\\' then
      match cs with
      | [] => .error (.defect .unterminated opening)
      | e :: rest =>
        if e == 'u' then
          match rest with
          | h₁ :: h₂ :: h₃ :: h₄ :: h₅ :: more =>
            match hexUnit? h₁ h₂ h₃ h₄ with
            | none => .error (.defect .unicodeEscape cs)
            | some n => do
              let (ns, out) ← units opening (h₅ :: more)
              return (n :: ns, out)
          | _ => .error (.defect .unicodeEscape cs)
        else
          match escaped? e with
          | none => .error (.defect .escape (c :: cs))
          | some x => do
            let (ns, out) ← units opening rest
            return (x.toNat :: ns, out)
    else if c.toNat < 32 then .error (.defect .control (c :: cs))
    else do
      let (ns, out) ← units opening cs
      return (c.toNat :: ns, out)

/-- Joins the halves of characters beyond the basic plane; nothing when a half stands alone. -/
def joinUnits? : List Nat → Option (List Char)
  | [] => some []
  | n :: ns =>
    if 0xd800 ≤ n && n < 0xdc00 then
      match ns with
      | m :: rest =>
        if 0xdc00 ≤ m && m < 0xe000 then
          (joinUnits? rest).map (Char.ofNat (0x10000 + (n - 0xd800) * 0x400 + (m - 0xdc00)) :: ·)
        else none
      | [] => none
    else if 0xdc00 ≤ n && n < 0xe000 then none
    else (joinUnits? ns).map (Char.ofNat n :: ·)

/-- Reads a string whose opening quote is the first character of `opening` and `cs` the rest. -/
def string (opening cs : List Char) : Except Stop (String × List Char) := do
  let (ns, rest) ← units opening cs
  match joinUnits? ns with
  | some text => return (String.ofList text, rest)
  | none => .error .half

def digitsValue (cs : List Char) : Nat :=
  cs.foldl (fun n c => n * 10 + (c.toNat - 48)) 0

/-- The places after a decimal point, if there is a point with a digit behind it. -/
def places (cs : List Char) : Option (List Char × List Char) :=
  match cs with
  | '.' :: d :: rest =>
    if d.isDigit then some ((d :: rest).takeWhile Char.isDigit, (d :: rest).dropWhile Char.isDigit)
    else none
  | _ => none

/-- The exponent, if there is a mark with digits behind it. -/
def exponent (cs : List Char) : Option (Int × List Char) :=
  match cs with
  | e :: rest =>
    if e == 'e' || e == 'E' then
      let (negative, digits) : Bool × List Char :=
        match rest with
        | '-' :: more => (true, more)
        | '+' :: more => (false, more)
        | more => (false, more)
      let ds := digits.takeWhile Char.isDigit
      if ds.isEmpty then none
      else some (Decimal.signedNat negative (digitsValue ds), digits.dropWhile Char.isDigit)
    else none
  | [] => none

def minus : List Char → Bool × List Char
  | '-' :: rest => (true, rest)
  | rest => (false, rest)

/-- The digits before a point or exponent; a zero in front stands alone. -/
def wholeDigits : List Char → List Char
  | '0' :: _ => ['0']
  | cs => cs.takeWhile Char.isDigit

/-- Reads a number; `start` is where the value begins. -/
def number (start : List Char) : Except Stop (Json × List Char) :=
  let (negative, cs) := minus start
  let whole := wholeDigits cs
  let rest := cs.drop whole.length
  if whole.isEmpty then .error (.defect .value start)
  else
    let (fraction, rest₁) := (places rest).getD ([], rest)
    match exponent rest₁ with
    | some (e, rest₂) =>
      .ok (.float (Decimal.floatOfDecimal negative (digitsValue (whole ++ fraction))
        (e - fraction.length)), rest₂)
    | none =>
      if fraction.isEmpty then
        if digitLimit < whole.length then .error (.digits whole.length)
        else .ok (.int (Decimal.signedNat negative (digitsValue whole)), rest₁)
      else
        .ok (.float (Decimal.floatOfDecimal negative (digitsValue (whole ++ fraction))
          (-(fraction.length : Int))), rest₁)

def constants : List (List Char × Json) :=
  [("null".toList, .null), ("true".toList, .bool true), ("false".toList, .bool false),
    ("NaN".toList, .float Decimal.Binary64.nan.toFloat),
    ("Infinity".toList, .float (Decimal.Binary64.infinite false).toFloat),
    ("-Infinity".toList, .float (Decimal.Binary64.infinite true).toFloat)]

/-- Reads a value that is no container. -/
def atom (cs : List Char) : Except Stop (Json × List Char) :=
  match cs with
  | '"' :: rest => do
    let (s, out) ← string cs rest
    return (.str s, out)
  | _ =>
    match constants.find? fun c => c.1.isPrefixOf cs with
    | some (name, value) => .ok (value, cs.drop name.length)
    | none => number cs

/-- Reads the items of a list up to its closing bracket; `fuel` bounds their number. -/
def items (value : List Char → Except Stop (Json × List Char)) :
    (fuel : Nat) → List Char → Except Stop (List Json × List Char)
  | 0, cs => .error (.defect .value cs)
  | fuel + 1, cs => do
    let (v, rest) ← value cs
    match skipSpace rest with
    | ']' :: out => return ([v], out)
    | ',' :: more =>
      let (vs, out) ← items value fuel (skipSpace more)
      return (v :: vs, out)
    | other => .error (.defect .comma other)

/-- Reads the entries of an object up to its closing brace; `fuel` bounds their number. -/
def entries (value : List Char → Except Stop (Json × List Char)) :
    (fuel : Nat) → List Char → Except Stop (List (String × Json) × List Char)
  | 0, cs => .error (.defect .name cs)
  | fuel + 1, cs =>
    match cs with
    | '"' :: body => do
      let (key, rest) ← string cs body
      match skipSpace rest with
      | ':' :: rest =>
        let (v, rest) ← value (skipSpace rest)
        match skipSpace rest with
        | '\x7d' :: out => return ([(key, v)], out)
        | ',' :: more =>
          let (es, out) ← entries value fuel (skipSpace more)
          return ((key, v) :: es, out)
        | other => .error (.defect .comma other)
      | other => .error (.defect .colon other)
    | other => .error (.defect .name other)

/-- Reads a value with containers nested at most `depth` deep. -/
def value : (depth : Nat) → List Char → Except Stop (Json × List Char)
  | 0, cs =>
    match cs with
    | '[' :: _ | '\x7b' :: _ => .error .depth
    | _ => atom cs
  | depth + 1, cs =>
    match cs with
    | '[' :: rest =>
      match skipSpace rest with
      | ']' :: out => .ok (.list [], out)
      | first => do
        let (vs, out) ← items (value depth) (first.length + 1) first
        return (.list vs, out)
    | '\x7b' :: rest =>
      match skipSpace rest with
      | '\x7d' :: out => .ok (.object [], out)
      | first => do
        let (es, out) ← entries (value depth) (first.length + 1) first
        return (.object (collect es), out)
    | _ => atom cs

/-- Reads a whole text as one value. -/
def read (cs : List Char) : Except Stop Json :=
  match cs with
  | '\ufeff' :: _ => .error (.defect .byteOrderMark cs)
  | _ => do
    let (v, rest) ← value nestingLimit (skipSpace cs)
    match skipSpace rest with
    | [] => return v
    | other => .error (.defect .extra other)

/-- A place in a text: line and column counted from one, and the offset counted from zero. -/
structure Place where
  line : Nat
  column : Nat
  offset : Nat
  deriving DecidableEq, Repr

def placeOf (text rest : List Char) : Place :=
  let before := text.take (text.length - rest.length)
  let tail := before.reverse.takeWhile (· != '\n')
  ⟨before.count '\n' + 1, tail.length + 1, before.length⟩

end ArrayExpr.Json
