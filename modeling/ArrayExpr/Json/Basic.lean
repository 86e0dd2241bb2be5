import ArrayExpr.Decimal.Notation
import ArrayExpr.Text.Quoted

/-!
JSON values. Whole numbers and numbers with a fraction or exponent are kept apart, and the entries
of an object keep the order in which their keys first appear.

Written as JSON, items are separated by a comma and a blank, keys and values by a colon and a blank;
every character outside ASCII is an escape, those beyond the basic plane are two.
-/

namespace ArrayExpr

inductive Json where
  | null
  | bool (b : Bool)
  | int (n : Int)
  | float (x : Float)
  | str (s : String)
  | list (items : List Json)
  | object (entries : List (String × Json))
  deriving Inhabited

namespace Json

/-- Sets the value of a key: a key that is present keeps its place. -/
def insert (key : String) (value : Json) : List (String × Json) → List (String × Json)
  | [] => [(key, value)]
  | (k, v) :: rest => if k == key then (k, value) :: rest else (k, v) :: insert key value rest

/-- The entries of a sequence of pairs: the first place and the last value of every key. -/
def collect (pairs : List (String × Json)) : List (String × Json) :=
  pairs.foldl (fun entries p => insert p.1 p.2 entries) []

/-- The value of a key. -/
def lookup? (key : String) (entries : List (String × Json)) : Option Json :=
  (entries.find? fun e => e.1 == key).map Prod.snd

/-- The value of a key of an object; nothing for every other value. -/
def field? (key : String) : Json → Option Json
  | .object entries => lookup? key entries
  | _ => none

/-- The name of the type of plain data. -/
def typeName : Json → String
  | .null => "NoneType"
  | .bool _ => "bool"
  | .int _ => "int"
  | .float _ => "float"
  | .str _ => "str"
  | .list _ => "list"
  | .object _ => "dict"

/-- Whether plain data counts as present: everything but null, false, zero and what is empty. -/
def isPresent : Json → Bool
  | .null => false
  | .bool b => b
  | .int n => n != 0
  | .float x => x != 0.0
  | .str s => !s.isEmpty
  | .list items => !items.isEmpty
  | .object entries => !entries.isEmpty

/-! ### Writing -/

def unitEscape (n : Nat) : String :=
  "\\u" ++ Text.hex 4 n

/-- A character inside a JSON string. -/
def writeChar (c : Char) : String :=
  if c == '"' then "\\\""
  else if c == '\\' then "\\\\"
  else if c == '\n' then "\\n"
  else if c == '\r' then "\\r"
  else if c == '\t' then "\\t"
  else if c == '\x08' then "\\b"
  else if c == '\x0c' then "\\f"
  else if 32 ≤ c.toNat && c.toNat < 127 then String.ofList [c]
  else if c.toNat < 0x10000 then unitEscape c.toNat
  else
    let n := c.toNat - 0x10000
    unitEscape (0xd800 + n / 0x400) ++ unitEscape (0xdc00 + n % 0x400)

def writeString (s : String) : String :=
  "\"" ++ String.join (s.toList.map writeChar) ++ "\""

/-- A number with a fraction or exponent, or one of the three names for what is not finite. -/
def writeFloat (x : Float) : String :=
  match Decimal.Binary64.ofFloat x with
  | .nan => "NaN"
  | .infinite negative => if negative then "-Infinity" else "Infinity"
  | .finite .. => Decimal.floatText x

mutual

/-- The text of a JSON value. -/
def write : Json → String
  | .null => "null"
  | .bool b => if b then "true" else "false"
  | .int n => Decimal.intText n
  | .float x => writeFloat x
  | .str s => writeString s
  | .list items => "[" ++ ", ".intercalate (writeItems items) ++ "]"
  | .object entries => "\x7b" ++ ", ".intercalate (writeEntries entries) ++ "\x7d"

def writeItems : List Json → List String
  | [] => []
  | j :: js => write j :: writeItems js

def writeEntries : List (String × Json) → List String
  | [] => []
  | (k, j) :: rest => (writeString k ++ ": " ++ write j) :: writeEntries rest

end

end Json

end ArrayExpr
