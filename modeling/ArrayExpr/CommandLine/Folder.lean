import ArrayExpr.Fault
import ArrayExpr.Text.Character

/-!
Files by path. A path is looked up, and named in messages, in its shortest spelling: without empty
steps and without steps that stay where they are. Files hold UTF-8; reading one as text turns every
line end into a line feed.
-/

namespace ArrayExpr.CommandLine

namespace Path

def steps (path : List Char) : List (List Char) :=
  (path.splitOn '/').filter fun step => !step.isEmpty && step != ['.']

/-- What an absolute path starts with; just two slashes are kept. -/
def root : List Char → List Char
  | '/' :: '/' :: '/' :: _ => ['/']
  | '/' :: '/' :: _ => ['/', '/']
  | '/' :: _ => ['/']
  | _ => []

def tidy (path : String) : String :=
  let cs := path.toList
  let short := root cs ++ ['/'].intercalate (steps cs)
  if short.isEmpty then "." else String.ofList short

def byteCount (cs : List Char) : Nat :=
  (String.ofList cs).utf8ByteSize

def maxStep : Nat := 255

def maxPath : Nat := 4095

end Path

/-- The bytes of files by path. -/
abbrev Reader := String → Except Fault (List Nat)

def Reader.text (read : Reader) (path : String) : Except Fault (List Char) := do
  match Text.Utf8.decode (← read path) with
  | .ok cs => return Text.unifyLineEnds cs
  | .error defect => throw (.notText defect)

/-- A folder: the bytes of its files by the steps that lead to them. -/
structure Folder where
  files : List (List (List Char) × List Nat)

namespace Folder

def ofPaths (files : List (String × List Nat)) : Folder :=
  ⟨files.map fun f => (Path.steps f.1.toList, f.2)⟩

/-- Where the steps of a path have led: to a file, to a folder inside the given one, or to a folder
above it, of which nothing is known. -/
inductive Place where
  | file (bytes : List Nat)
  | inside (steps : List (List Char))
  | above

/-- Follows a step. The fault names the whole path. -/
def follow (folder : Folder) (path : String) (place : Place) (step : List Char) :
    Except Fault Place :=
  match place with
  | .file _ => .error (.notDirectory path)
  | .above =>
    if step == ['.', '.'] then .ok .above
    else .error (if Path.maxStep < Path.byteCount step then .pathTooLong path else .noSuchFile path)
  | .inside steps =>
    let there := steps ++ [step]
    if step == ['.', '.'] then .ok (if steps.isEmpty then .above else .inside steps.dropLast)
    else if Path.maxStep < Path.byteCount step then .error (.pathTooLong path)
    else
      match folder.files.find? fun f => f.1 == there with
      | some f => .ok (.file f.2)
      | none =>
        if folder.files.any fun f => there.isPrefixOf f.1 then .ok (.inside there)
        else .error (.noSuchFile path)

/-- What an absolute path can lead to wherever the command runs: the null device, which is empty. -/
def system : Folder := .ofPaths [("dev/null", [])]

/-- Reads a file, the folder being the current one. Of other folders nothing is known but that they
are there. -/
def read (folder : Folder) : Reader := fun path =>
  let cs := path.toList
  let short := Path.tidy path
  let top := if (Path.root cs).isEmpty then folder else system
  if cs.contains '\x00' then .error .nullInPath
  else if Path.maxPath < short.utf8ByteSize then .error (.pathTooLong short)
  else do
    match ← (Path.steps cs).foldlM (top.follow short) (.inside []) with
    | .file bytes => return bytes
    | _ => throw (.isDirectory short)

end Folder

end ArrayExpr.CommandLine
