import ArrayExpr.Text.Quoted

/-!
The options of the command, and how a command line can be wrong.
-/

namespace ArrayExpr.CommandLine

inductive Switch where
  | help
  | source
  | verbose
  | markers
  deriving DecidableEq, Repr

namespace Switch

def all : List Switch := [.help, .source, .verbose, .markers]

def letter : Switch → Char
  | .help => 'h'
  | .source => 's'
  | .verbose => 'v'
  | .markers => 'm'

def long : Switch → List Char
  | .help => "--help".toList
  | .source => "--source".toList
  | .verbose => "--verbose".toList
  | .markers => "--markers".toList

def takesValue : Switch → Bool
  | .source => true
  | _ => false

def title (s : Switch) : String :=
  String.ofList ('-' :: s.letter :: '/' :: s.long)

def ofLetter? (c : Char) : Option Switch :=
  all.find? fun s => s.letter == c

def startingWith (front : List Char) : List Switch :=
  all.filter fun s => front.isPrefixOf s.long

/-- The option that a word spells out, and whether it does so by its letter. -/
def spelled? : List Char → Option (Switch × Bool)
  | ['-', c] => (ofLetter? c).map fun s => (s, true)
  | cs => (all.find? fun s => s.long == cs).map fun s => (s, false)

end Switch

/-- How a command line can be wrong. -/
inductive Misuse where
  /-- A shortened option that may mean several. -/
  | ambiguous (word : String) (options : List Switch)
  /-- An option without its value. -/
  | valueMissing (option : Switch)
  /-- A value for an option that has none. -/
  | valueIgnored (option : Switch) (value : String)
  /-- No program is named. -/
  | programMissing
  /-- Words that stand for nothing. -/
  | unrecognized (words : List String)
  deriving DecidableEq, Repr

/-- The wording of a misuse. -/
def Misuse.message : Misuse → String
  | ambiguous word options =>
    "ambiguous option: " ++ word ++ " could match " ++
      ", ".intercalate (options.map fun s => String.ofList s.long)
  | valueMissing option => "argument " ++ option.title ++ ": expected one argument"
  | valueIgnored option value =>
    "argument " ++ option.title ++ ": ignored explicit argument " ++ Text.quote value
  | programMissing => "the following arguments are required: program"
  | unrecognized words => "unrecognized arguments: " ++ " ".intercalate words

end ArrayExpr.CommandLine
