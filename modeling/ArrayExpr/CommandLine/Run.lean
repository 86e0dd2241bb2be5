import ArrayExpr.CommandLine.Arguments
import ArrayExpr.CommandLine.Folder
import ArrayExpr.CommandLine.Usage
import ArrayExpr.Json.Basic
import ArrayExpr.Outcome

/-!
What the command does: it reads a program, runs it with the built-in capabilities, prints every
binding, and then prints the issues, as markers or illustrated by the source text. A program that is
missing or is no token tree is a complaint; every other fault leaves the command, and so does what keeps
a value from being printed.
-/

namespace ArrayExpr.CommandLine

/-- How the command ends: by itself with a status, early with a status, or by a fault. -/
inductive Ending where
  | status (n : Nat)
  | exit (n : Nat)
  | fault (f : Fault)

/-- What the command prints, line by line, and how it ends. -/
structure Transcript where
  output : List String := []
  errors : List String := []
  ending : Ending

/-- A value as it is printed: tensors and single elements as plain data. -/
def display (v : Value) : Except Fault String :=
  match v with
  | .tensor t => t.toNative.shownWithin textLimit
  | .scalar s => s.toNative.shownWithin textLimit
  | v => v.shownWithin textLimit

def bindingLine (e : Key × Value) : Except Fault String := do
  let name ← written e.1.shown e.1.obstacle?
  let value ← display e.2
  return name ++ " = " ++ value

/-- The lines that show the result of a run: every entry of a mapping, or the result itself. -/
def resultLines : Value → List (Except Fault String)
  | .dict entries => entries.map bindingLine
  | v => [display v]

/-- The lines up to the first that cannot be written, and what keeps that one from it. -/
def upToFault : List (Except Fault String) → List String × Option Fault
  | [] => ([], none)
  | .ok line :: rest =>
    let (lines, fault?) := upToFault rest
    (line :: lines, fault?)
  | .error fault :: _ => ([], some fault)

def markersLine (issues : List Issue) : String :=
  (Json.list (issues.map Issue.marker)).write

def isUnreadable : Fault → Bool
  | .badJson .. | .untagged _ | .badLocation .. | .lacksField .. => true
  | _ => false

/-- The end of a run that could not read its program. -/
def refuse (path : String) (fault : Fault) : Transcript :=
  match fault with
  | .noSuchFile _ =>
    { errors := ["I see no file called " ++ path], ending := .status 1 }
  | fault =>
    if isUnreadable fault then
      { errors := ["Something went pear-shaped while trying to read " ++ path ++ ": " ++
          fault.message]
        ending := .status 1 }
    else { ending := .fault fault }

def sourceText? (read : Reader) (i : Invocation) : Except Fault (Option (List Char)) :=
  match i.source? with
  | none => .ok none
  | some path => if path.isEmpty then .ok none else do return some (← read.text path)

/-- What is printed of a run that came to a value. -/
def present (read : Reader) (i : Invocation) (result : Value) (report : Report) : Transcript :=
  let ending : Ending := .status (if report.issues.isEmpty then 0 else 1)
  match upToFault (resultLines result) with
  | (lines, some fault) => { output := lines, errors := report.console, ending := .fault fault }
  | (lines, none) =>
    if i.markers then
      { output := lines ++ [markersLine report.issues], errors := report.console, ending }
    else if report.issues.isEmpty then { output := lines, errors := report.console, ending }
    else
      match sourceText? read i with
      | .ok text? => { output := lines, errors := (report.complain text?).console, ending }
      | .error fault => { output := lines, errors := report.console, ending := .fault fault }

/-- Does what a complete command line asks for. -/
def run (read : Reader) (i : Invocation) : Transcript :=
  match read.text i.program >>= Token.load nestingLimit with
  | .error fault => refuse i.program fault
  | .ok root =>
    let outcome := interpretToken .standard i.verbose root
    match outcome.result with
    | .ok value => present read i value outcome.machine.report
    | .error fault =>
      { errors := outcome.machine.report.console, ending := .fault fault }

/-- Answers a command line. -/
def respond (read : Reader) (words : List String) : Transcript :=
  if words.isEmpty then { output := introduction, ending := .status 0 }
  else
    match parse words with
    | .ok i => run read i
    | .error .help => { output := help, ending := .exit 0 }
    | .error (.misuse m) =>
      { errors := [usage, command ++ ": error: " ++ m.message], ending := .exit 2 }

end ArrayExpr.CommandLine
