import ArrayExpr.Token.Basic
import ArrayExpr.Token.Location

/-!
Reading a token tree from tagged mappings. Of each mapping the tag is looked for first, then the
location is read, then the type, and then the fields in a fixed order, each part of the tree before
the next field. A token without a location covers its parts. Trees nest to a given depth, and so do the
texts of names and of messages, for which there is less room the deeper they are asked for.
-/

namespace ArrayExpr

namespace Json

/-- The members of plain data: items of a list, characters of a text, keys of an object. -/
def members : Json → Except Fault (List Json)
  | .list items => .ok items
  | .str s => .ok (s.toList.map fun c => .str (String.ofList [c]))
  | .object entries => .ok (entries.map fun e => .str e.1)
  | j => .error (.notIterable j.typeName)

end Json

namespace Token

/-- The span that a mapping gives its token, if it gives one. Only an infinite number is a fault of
its own. -/
def spanOf? (room : Nat) (entries : List (String × Json)) (type : Json) :
    Except Fault (Option Span) :=
  match Json.lookup? "location" entries with
  | some location =>
    if location.isPresent then
      match Span.ofJson location with
      | .ok span => .ok (some span)
      | .error .infiniteNumber => .error .infiniteNumber
      | .error _ => do
        let location ← location.quotedWithin room
        let type ← type.shownWithin room
        .error (.badLocation location type)
    else .ok none
  | none => .ok none

def needed (kind field : String) (entries : List (String × Json)) : Except Fault Json :=
  match Json.lookup? field entries with
  | some j => .ok j
  | none => .error (.lacksField kind field)

def optional (field : String) (entries : List (String × Json)) : Json :=
  (Json.lookup? field entries).getD .null

/-- A list of names; each may be any plain data and counts by its text. -/
def namesOf (room : Nat) (field : String) (entries : List (String × Json)) :
    Except Fault (List String) :=
  match Json.lookup? field entries with
  | some j => do (← j.members).mapM (Json.shownWithin room)
  | none => .ok []

def located (span? : Option Span) (parts : List Token) : Span :=
  span?.getD (Span.coverAll (parts.map span))

/-- Reads the fields of a token of a known kind; `sub` reads its parts. Nothing for an unknown
kind. -/
def ofFields? (room : Nat) (sub : Json → Except Fault Token) (span? : Option Span)
    (entries : List (String × Json)) (kind : String) : Option (Except Fault Token) :=
  let part field : Except Fault Token := do sub (← needed kind field entries)
  match kind with
  | "Program" => some do
    let members ← (← (← needed kind "value" entries).members).mapM sub
    return .program (located span? members) members
  | "Assignment" => some do
    let path ← part "path"
    let value ← part "value"
    return .assignment (located span? [path, value]) path value
  | "Reference" => some do
    let path ← part "value"
    return .reference (located span? [path]) path
  | "Path" => some do
    return .path (located span? []) (← namesOf room "value" entries)
  | "Function" => some do
    let body ← part "value"
    return .function (located span? [body]) (optional "argument" entries) body
  | "FunctionApplication" => some do
    let argument ← part "argument"
    return .application (located span? [argument]) (optional "functionName" entries) argument
  | "FunctionComposition" => some do
    return .composition (located span? []) (← namesOf room "list" entries)
  | "BinaryOperation" => some do
    let left ← part "left"
    let right ← part "right"
    return .binary (located span? [left, right]) (optional "operator" entries) left right
  | "UnaryOperation" => some do
    let operand ← part "value"
    return .unary (located span? [operand]) (optional "operator" entries) operand
  | "ImplicitConversion" => some do
    let operand ← part "value"
    return .conversion (located span? [operand]) operand
  | "Tensor" => some (.ok (.literal (located span? []) (optional "value" entries)))
  | "Object" => some do
    let content ← part "value"
    return .object (located span? [content]) content
  | _ => none

/-- The fault of a mapping without a type tag, or of what is no mapping. -/
def untagged (room : Nat) (j : Json) : Except Fault Token := do
  .error (.untagged (← j.quotedWithin room))

/-- Reads a mapping with a type tag; `sub` reads its parts. -/
def ofTagged (room : Nat) (sub : Json → Except Fault Token) (entries : List (String × Json))
    (type : Json) : Except Fault Token := do
  let span? ← spanOf? room entries type
  match type with
  | .list _ | .object _ => .error (.unhashable type.typeName)
  | .str kind =>
    match ofFields? room sub span? entries kind with
    | some token => token
    | none => return .unknown (located span? []) kind entries
  | other => return .unknown (located span? []) (← other.shownWithin room) entries

/-- Reads a token tree that nests at most `depth` deep. -/
def decode : (depth : Nat) → Json → Except Fault Token
  | 0, _ => .error .tooDeep
  | depth + 1, j =>
    match j with
    | .object entries =>
      match Json.lookup? "type" entries with
      | none => untagged (writingRoom depth) j
      | some type => ofTagged (writingRoom depth) (decode depth) entries type
    | _ => untagged (writingRoom depth) j

/-- Reads a text as JSON. -/
def readJson (text : List Char) : Except Fault Json :=
  match Json.read text with
  | .ok j => .ok j
  | .error (.defect reason rest) => .error (.badJson reason (Json.placeOf text rest))
  | .error (.digits count) => .error (.tooManyDigits count)
  | .error .depth => .error .tooDeep
  | .error .half => .error .halfCharacter

/-- Reads a text as a token tree that nests at most `depth` deep. -/
def load (depth : Nat) (text : List Char) : Except Fault Token := do
  decode depth (← readJson text)

end Token

end ArrayExpr
