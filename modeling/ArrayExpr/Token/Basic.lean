import ArrayExpr.Json.Basic

/-!
The tree of a parsed program. Every token has a span in the source text, in lines and columns that
start at one; a span whose first line is not positive is not known. Operators, function names,
parameters and literals are kept as they came; a token of a kind that is not known keeps the whole
mapping it was made from.
-/

namespace ArrayExpr

/-- A stretch of source text, from a line and column to a line and column. -/
structure Span where
  startLine : Int
  startColumn : Int
  endLine : Int
  endColumn : Int
  deriving DecidableEq, Repr

namespace Span

def nowhere : Span := ⟨0, 0, 0, 0⟩

def isKnown (s : Span) : Bool := 0 < s.startLine

/-- How many columns to mark: at least one, and one for a span of several lines. -/
def width (s : Span) : Int :=
  if s.startLine != s.endLine then 1 else max (s.endColumn - s.startColumn) 1

def text (s : Span) : String :=
  Decimal.intText s.startLine ++ ":" ++ Decimal.intText s.startColumn ++ "-" ++
    Decimal.intText s.endLine ++ ":" ++ Decimal.intText s.endColumn

/-- From the start of one span to the end of another; a span that is not known gives way. -/
def cover (first last : Span) : Span :=
  if !first.isKnown then last
  else if !last.isKnown then first
  else ⟨first.startLine, first.startColumn, last.endLine, last.endColumn⟩

def coverAll (spans : List Span) : Span :=
  spans.foldl cover nowhere

end Span

inductive Token where
  | program (span : Span) (members : List Token)
  | assignment (span : Span) (path value : Token)
  | reference (span : Span) (path : Token)
  | path (span : Span) (segments : List String)
  | function (span : Span) (parameter : Json) (body : Token)
  | application (span : Span) (name : Json) (argument : Token)
  | composition (span : Span) (names : List String)
  | binary (span : Span) (operator : Json) (left right : Token)
  | unary (span : Span) (operator : Json) (operand : Token)
  | conversion (span : Span) (operand : Token)
  | literal (span : Span) (value : Json)
  | object (span : Span) (content : Token)
  | unknown (span : Span) (kind : String) (raw : List (String × Json))

namespace Token

def span : Token → Span
  | .program s _ | .assignment s _ _ | .reference s _ | .path s _ | .function s _ _
  | .application s _ _ | .composition s _ | .binary s _ _ _ | .unary s _ _ | .conversion s _
  | .literal s _ | .object s _ | .unknown s _ _ => s

/-- The name of the kind of a token, as it stands in the type tag. -/
def kind : Token → String
  | .program .. => "Program"
  | .assignment .. => "Assignment"
  | .reference .. => "Reference"
  | .path .. => "Path"
  | .function .. => "Function"
  | .application .. => "FunctionApplication"
  | .composition .. => "FunctionComposition"
  | .binary .. => "BinaryOperation"
  | .unary .. => "UnaryOperation"
  | .conversion .. => "ImplicitConversion"
  | .literal .. => "Tensor"
  | .object .. => "Object"
  | .unknown _ kind _ => kind

def shown : Token → String
  | .path _ segments => "<Path " ++ "/".intercalate segments ++ ">"
  | t => "<" ++ t.kind ++ " " ++ t.span.text ++ ">"

end Token

end ArrayExpr
