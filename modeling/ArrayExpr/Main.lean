import ArrayExpr.CommandLine.Run

/-!
The command. It reads the files that the command line names, prints what the answer says, and ends
with its status.
-/

namespace ArrayExpr.CommandLine

def faultOf (path : String) : IO.Error → Fault
  | .noFileOrDirectory .. => .noSuchFile path
  | .inappropriateType _ 20 _ => .notDirectory path
  | .invalidArgument _ 36 _ => .pathTooLong path
  | _ => .isDirectory path

/-- The bytes of a file. -/
def readBytes (path : String) : IO (Except Fault (List Nat)) := do
  let short := Path.tidy path
  if path.toList.contains '\x00' then return .error .nullInPath
  try
    let bytes ← IO.FS.readBinFile short
    return .ok (bytes.toList.map UInt8.toNat)
  catch e => return .error (faultOf short e)

def namedFiles (words : List String) : List String :=
  match parse words with
  | .ok i => i.program :: i.source?.toList
  | .error _ => []

end ArrayExpr.CommandLine

open ArrayExpr ArrayExpr.CommandLine

/-- Runs the command. -/
def main (words : List String) : IO UInt32 := do
  let files ← (namedFiles words).mapM fun path => do return (path, ← readBytes path)
  let read : Reader := fun path =>
    match files.find? fun f => f.1 == path with
    | some f => f.2
    | none => .error (.noSuchFile path)
  let t := respond read words
  t.output.forM IO.println
  t.errors.forM IO.eprintln
  match t.ending with
  | .status n | .exit n => return n.toUInt32
  | .fault f =>
    IO.eprintln f.message
    return 1
