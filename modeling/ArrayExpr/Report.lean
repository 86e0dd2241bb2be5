import ArrayExpr.Text.Character
import ArrayExpr.Token.Basic

/-!
What a run has to say. Issues are failed calls, each at the place of the call; warnings are names and
operators that could not be resolved. Warnings go to the console at once, issues when asked for, drawn
under the line of the source text they point at where that text is at hand. The place of a span is
counted in lines, which many characters end; the row that is drawn ends at line feeds and carriage
returns only.
-/

namespace ArrayExpr

/-- An issue at a place in the source text. -/
structure Issue where
  span : Span
  message : String
  severity : String := "error"
  deriving DecidableEq, Repr

namespace Issue

def marker (i : Issue) : Json :=
  .object
    [("startLineNumber", .int i.span.startLine), ("startColumn", .int i.span.startColumn),
      ("endLineNumber", .int i.span.endLine), ("endColumn", .int i.span.endColumn),
      ("message", .str i.message), ("severity", .str i.severity)]

end Issue

namespace Illustration

/-- The offset in a text of the start of a known span. It stays inside the text: a place behind the
end counts as the last character. -/
def offset (text : List Char) (span : Span) : Nat :=
  let before := ((Text.lines text).take (span.startLine - 1).toNat).foldl (fun n l => n + l.length) 0
  min (before + (span.startColumn - 1).toNat) (text.length - 1)

def locate : (rows : List (List Char)) → (offset : Nat) → List Char × Nat
  | [], offset => ([], offset)
  | row :: rows, offset =>
    if offset < row.length || rows.isEmpty then (row, offset)
    else locate rows (offset - row.length)

def margin (line : Int) : List Char :=
  let digits := ' ' :: (Decimal.intText line).toList
  List.replicate (6 - digits.length) ' ' ++ digits ++ [' ', '|']

def blanksUnder (cs : List Char) : List Char :=
  cs.map fun c => if c == '\t' then '\t' else ' '

/-- A row of text with carets under `width` columns from `column` on, and a caption behind them. -/
def picture (row : List Char) (column : Nat) (width line : Int) (caption : String) : String :=
  let front := margin line
  let carets := max 1 (min width.toNat (row.length - column))
  String.ofList
    (front ++ Text.stripEnd row ++ '\n' :: List.replicate front.length ' ' ++
      blanksUnder (row.take column) ++ List.replicate carets '^' ++ [' ']) ++ caption

end Illustration

/-- An issue drawn under its line of the source text; one without a place is only its message. -/
def Issue.illustrate (i : Issue) (text : List Char) : String :=
  if i.span.isKnown then
    let (row, column) := Illustration.locate (Text.rows text) (Illustration.offset text i.span)
    Illustration.picture row column i.span.width i.span.startLine i.message
  else i.message

/-- What is printed about a list of issues, print by print. -/
def complaints (issues : List Issue) (text? : Option (List Char)) : List String :=
  (if issues.isEmpty then []
    else
      [String.ofList (List.replicate 60 '*'),
        Decimal.intText issues.length ++ " issue(s) during evaluation."]) ++
    issues.flatMap fun i =>
      [String.join (List.replicate 20 "  -"),
        match text? with
        | none => i.span.text ++ ": " ++ i.message
        | some text => i.illustrate text]

/-- Everything reported during a run: the issues, the warnings, and what went to the console, print
by print. -/
structure Report where
  verbose : Bool := false
  issues : List Issue := []
  warnings : List String := []
  console : List String := []
  deriving DecidableEq, Repr

namespace Report

def printed (prints : List String) : String :=
  String.join (prints.map (· ++ "\n"))

/-- Adds an issue. -/
def issue (r : Report) (span : Span) (message : String) : Report :=
  { r with issues := r.issues ++ [{ span, message }] }

/-- Adds a warning and prints it; the details are printed too when verbose. -/
def warn (r : Report) (message : String) (details : List String) : Report :=
  let prints := if r.verbose then details.map ("    " ++ ·) else []
  { r with warnings := r.warnings ++ [message], console := r.console ++ message :: prints }

def info (r : Report) (words : List String) : Report :=
  if r.verbose then { r with console := r.console ++ [" ".intercalate words] } else r

/-- Prints the issues, illustrated where the source text is at hand. -/
def complain (r : Report) (text? : Option (List Char)) : Report :=
  { r with console := r.console ++ complaints r.issues text? }

end Report

end ArrayExpr
