import FormulaScript.Console.Options

/-! What the program says about its command line. -/

namespace FormulaScript.Usage

/-- The name of the program. -/
def programName : String := "cexpr"

/-- The options at a glance. -/
def synopsis : String :=
  s!"usage: {programName} [-h] [-e | -s TEXT | -f PATH] [--run N] [--ulp N] [--verbose]"

/-- The options in full. -/
def manual : List String := [
  synopsis,
  "",
  "Interprets C-like mathematical expressions and scripts. Without options it",
  "starts the interactive script mode.",
  "",
  "options:",
  "  -h, --help            show this help message and exit",
  "  -e, --simple-mode     Interactive simple equation mode",
  "  -s TEXT, --script TEXT",
  "                        Script text to load",
  "  -f PATH, --file PATH  Load the script from a file",
  "  --run N               Run the script N times without prompting and print the",
  "                        variables",
  "  --ulp N               ULP tolerance for comparisons (default: 100)",
  "  --verbose             Debug logging and parse tree display"]

/-- The lines that say what is wrong with a command line. -/
def complaint (problem : UsageError) : List String :=
  [synopsis, s!"{programName}: error: {problem.message}"]

end FormulaScript.Usage
