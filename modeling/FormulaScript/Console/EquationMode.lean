import FormulaScript.Console.Dialogue
import FormulaScript.Equation
import FormulaScript.Expr.Outline

/-! The equation mode: each line is an expression, and its value is shown. The variables of one line
are there, with their values, on the next. -/

namespace FormulaScript

/-- The state between two lines: the variables so far, the source of random numbers, and whether the
outline of an expression is shown before its value. -/
structure EquationMode where
  tolerance : Int
  verbose : Bool
  names : List String := []
  values : List Float := []
  random : Random

namespace EquationMode

/-- A value as it is shown, or why there is none. -/
def resultText : Except EvaluationError Float → String
  | .ok value => Number.format value
  | .error failure => failure.message

/-- Evaluates an expression on the variables so far; new ones start at zero. An expression that
does not parse is answered with a report and changes nothing. -/
def calculate (line : String) (mode : EquationMode) : Answer EquationMode :=
  let equation := Equation.parse line mode.names true
  match equation.expr with
  | none => ⟨Text.unlines equation.report, some mode⟩
  | some e =>
    let names := equation.vars.names
    let values := mode.values ++ List.replicate (names.length - mode.values.length) 0.0
    let run := equation.evaluate mode.tolerance (some values) ⟨mode.random, ""⟩
    let outline := if mode.verbose then e.describe 0 ++ "\n" else ""
    ⟨outline ++ run.shared.output ++ resultText run.result ++ "\n",
      some { mode with names, values := run.given.getD values, random := run.shared.random }⟩

/-- Shows outlines from now on, or no more. -/
def toggleVerbose (mode : EquationMode) : Answer EquationMode :=
  let verbose := !mode.verbose
  let state := if verbose then "ON" else "OFF"
  ⟨s!"[mode] >>> Verbose mode {state}\n", some { mode with verbose }⟩

/-- Answers a line that is neither blank, nor leaves, nor asks for help. -/
def perform (line : String) (mode : EquationMode) : Answer EquationMode :=
  if line = "verbose" then mode.toggleVerbose else mode.calculate line

/-- The text that the mode starts with. -/
def banner : String := "Starting simple equation mode.\nType 'help' to get some help.\n"

/-- The dialogue of the mode. -/
def dialogue : Dialogue EquationMode where
  prompt _ := Dialogue.mainPrompt
  answer line := Dialogue.reply .equation perform (.ofLine line)

/-- The opening of the mode: no variables yet. -/
def start (tolerance : Int) (verbose : Bool) (random : Random) : Answer EquationMode :=
  ⟨banner, some { tolerance, verbose, random }⟩

end EquationMode

end FormulaScript
