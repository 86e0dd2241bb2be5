import ArrayExpr.CommandLine.Switch
import ArrayExpr.Text.Character

/-!
The words of a command line, each told apart by itself: plain words, options with a value attached
or not, words that only look like options, and the separator behind which all words are plain. Long
options may be shortened as long as one option only is meant.
-/

namespace ArrayExpr.CommandLine

/-- A word of a command line. An option is given by its letter or by its long name, and may have a
text attached to it. -/
inductive Word where
  | plain (text : String)
  | separator
  | option (switch : Switch) (byLetter : Bool) (attached? : Option (List Char))
  | unknown (text : String)
  deriving DecidableEq, Repr

def isDigits (cs : List Char) : Bool :=
  !cs.isEmpty && cs.all fun c => (Text.digitValue? c).isSome

def dropLineFeed (cs : List Char) : List Char :=
  if cs.getLast? == some '\n' then cs.dropLast else cs

/-- Whether what follows a minus sign makes it a number: digits, with a point before the last of
them or without. -/
def isMagnitude (cs : List Char) : Bool :=
  let body := dropLineFeed cs
  match body.span (· != '.') with
  | (whole, '.' :: places) => (whole.isEmpty || isDigits whole) && isDigits places
  | (whole, _) => isDigits whole

/-- A word that looks like an option and is none: plain if it is a negative number or holds a
blank. -/
def notAnOption (cs : List Char) : Word :=
  if isMagnitude (cs.drop 1) || cs.contains ' ' then .plain (String.ofList cs)
  else .unknown (String.ofList cs)

/-- A text up to the first equals sign, and what is attached behind it. -/
def divide (cs : List Char) : List Char × Option (List Char) :=
  match cs.span (· != '=') with
  | (name, _ :: value) => (name, some value)
  | (name, []) => (name, none)

/-- A word that starts with two minus signs and spells no option out. -/
def shortened (cs : List Char) : Except Misuse Word :=
  let (name, attached?) := divide cs
  match Switch.startingWith name with
  | [] => .ok (notAnOption cs)
  | [s] => .ok (.option s false attached?)
  | many => .error (.ambiguous (String.ofList cs) many)

/-- A word that starts with a minus sign and a letter and spells no option out. -/
def clustered (letter : Char) (rest : List Char) : Word :=
  match Switch.ofLetter? letter with
  | some s => .option s true (some rest)
  | none => notAnOption ('-' :: letter :: rest)

/-- Tells a word apart from others. -/
def classify (word : String) : Except Misuse Word :=
  let cs := word.toList
  match Switch.spelled? cs, cs with
  | some (s, byLetter), _ => .ok (.option s byLetter none)
  | none, '-' :: c :: rest =>
    match divide cs with
    | (name, some attached) =>
      match Switch.spelled? name with
      | some (s, byLetter) => .ok (.option s byLetter (some attached))
      | none => if c == '-' then shortened cs else .ok (clustered c rest)
    | (_, none) => if c == '-' then shortened cs else .ok (clustered c rest)
  | none, _ => .ok (.plain word)

/-- Tells the words apart; behind a separator they are plain. -/
def classifyAll : List String → Except Misuse (List Word)
  | [] => .ok []
  | "--" :: words => .ok (.separator :: words.map .plain)
  | word :: words => do return (← classify word) :: (← classifyAll words)

end ArrayExpr.CommandLine
