import ArrayExpr.CommandLine.Word

/-!
Taking the words of a command line in order. Short options may be clustered, and the value of an
option may be attached to it or be the next word. Whatever stands for nothing is collected, and is a
misuse at the end.
-/

namespace ArrayExpr.CommandLine

/-- What has been read so far. -/
structure Settings where
  program? : Option String := none
  source? : Option String := none
  verbose : Nat := 0
  markers : Bool := false
  strays : List String := []
  deriving DecidableEq, Repr

inductive Stop where
  | help
  | misuse (m : Misuse)
  deriving DecidableEq, Repr

/-- What an option word asks for: options in order, and at the end perhaps a source or one whose path
is the next word. -/
inductive Request where
  | option (s : Switch)
  | source (path : String)
  | sourceIsNext
  deriving DecidableEq, Repr

def bare (s : Switch) : Request :=
  if s.takesValue then .sourceIsNext else .option s

/-- The path that is attached to an option; a separator is none. -/
def attachedPath (cs : List Char) : String :=
  if cs == ['-', '-'] then "" else String.ofList cs

/-- What an option with an attached text asks for. The text is its value if it takes one; else, if
the option was given by its letter, the text is the rest of a cluster of letters. -/
def unfold (s : Switch) (byLetter : Bool) : List Char → Except Misuse (List Request)
  | [] => if s.takesValue then .ok [.source ""] else .error (.valueIgnored s "")
  | c :: rest =>
    if s.takesValue then .ok [.source (attachedPath (c :: rest))]
    else
      match byLetter, Switch.ofLetter? c, rest with
      | true, some next, [] => .ok [.option s, bare next]
      | true, some next, rest => do return .option s :: (← unfold next true rest)
      | _, _, rest => .error (.valueIgnored s (String.ofList (c :: rest)))

def requests (s : Switch) (byLetter : Bool) : Option (List Char) → Except Misuse (List Request)
  | none => .ok [bare s]
  | some attached => unfold s byLetter attached

/-- Fulfils the requests of a word; the value of an option that wants one is given. -/
def fulfil (value : String) : Settings → List Request → Except Stop Settings
  | s, [] => .ok s
  | _, .option .help :: _ => .error .help
  | s, .option .verbose :: rest => fulfil value { s with verbose := s.verbose + 1 } rest
  | s, .option .markers :: rest => fulfil value { s with markers := true } rest
  | s, .option .source :: rest | s, .sourceIsNext :: rest =>
    fulfil value { s with source? := some value } rest
  | s, .source path :: rest => fulfil value { s with source? := some path } rest

/-- Takes the words in order. The first plain word that is no value is the program, together with a
separator beside it; the others stand for nothing. -/
def take : Settings → List Word → Except Stop Settings
  | s, [] => .ok s
  | s, .unknown text :: rest => take { s with strays := s.strays ++ [text] } rest
  | s, .plain text :: rest =>
    match s.program?, rest with
    | some _, rest => take { s with strays := s.strays ++ [text] } rest
    | none, .separator :: rest => take { s with program? := some text } rest
    | none, rest => take { s with program? := some text } rest
  | s, .separator :: rest =>
    match s.program?, rest with
    | none, .plain text :: rest => take { s with program? := some text } rest
    | _, rest => take { s with strays := s.strays ++ ["--"] } rest
  | s, .option switch byLetter attached? :: rest =>
    match requests switch byLetter attached? with
    | .error m => .error (.misuse m)
    | .ok asked =>
      match asked.contains .sourceIsNext, rest with
      | true, .plain value :: rest => do take (← fulfil value s asked) rest
      | true, _ => .error (.misuse (.valueMissing .source))
      | false, rest => do take (← fulfil "" s asked) rest

structure Invocation where
  program : String
  source? : Option String
  verbose : Bool
  markers : Bool
  deriving DecidableEq, Repr

/-- Reads a command line. -/
def parse (words : List String) : Except Stop Invocation :=
  match classifyAll words with
  | .error m => .error (.misuse m)
  | .ok told => do
    let s ← take {} told
    match s.program? with
    | none => .error (.misuse .programMissing)
    | some program =>
      if s.strays.isEmpty then return ⟨program, s.source?, 0 < s.verbose, s.markers⟩
      else .error (.misuse (.unrecognized s.strays))

end ArrayExpr.CommandLine
