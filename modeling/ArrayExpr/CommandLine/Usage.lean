/-!
The texts that explain the command line.
-/

namespace ArrayExpr.CommandLine

def command : String := "arraylang"

/-- The line that shows how the command is used. -/
def usage : String :=
  "usage: " ++ command ++ " [-h] [-s SOURCE] [-v] [-m] program"

/-- The explanation of every argument, line by line. -/
def help : List String :=
  [usage,
    "",
    "Evaluator for parsed array-language programs.",
    "",
    "positional arguments:",
    "  program               a parsed program, as tagged JSON.",
    "",
    "options:",
    "  -h, --help            show this help message and exit",
    "  -s SOURCE, --source SOURCE",
    "                        the source text the program was parsed from, for",
    "                        illustrating issues.",
    "  -v, --verbose         Say more about what happens, especially about names",
    "                        that fail to resolve.",
    "  -m, --markers         Print issues as editor markers (JSON) on stdout",
    "                        instead of illustrating them."]

/-- The introduction, line by line. -/
def introduction : List String :=
  ["This is an evaluator for a small array-oriented expression language.",
    "",
    usage,
    "",
    "",
    "For example:",
    "",
    "    " ++ command ++ " program.json",
    "",
    "will evaluate the parsed program in program.json and print each binding.",
    "",
    "    " ++ command ++ " program.json --source program.txt",
    "",
    "will also illustrate any issues against the original text.",
    "",
    "    " ++ command ++ " -h",
    "",
    "will explain all the arguments."]

end ArrayExpr.CommandLine
