import FormulaScript.Script
import FormulaScript.Text.Lines

/-! Batch runs: a script is run some times in a row without prompting, and its variables are shown
after each run. -/

namespace FormulaScript

/-- How a program ends: its exit status and everything that it has printed. -/
structure Outcome where
  status : Nat
  output : String

namespace Batch

/-- The lines that show the variables after a run. -/
def summary (index : Nat) (names : List String) (values : List Float) : List String :=
  s!"--- run {index} ---" :: List.zipWith valueLine names values

/-- Runs a script `count` times, the first time as run number `index`, and gives the values that one
run leaves to the next. A failure ends the runs. -/
def repeatRuns (settings : Settings) (script : Script) (index : Nat) (values : List Float)
    (shared : Shared) : Nat → Outcome
  | 0 => ⟨0, shared.output⟩
  | count + 1 =>
    let run := script.evaluate settings (some values) shared
    let print (lines : List String) : String := run.shared.output ++ Text.unlines lines
    match run.result with
    | .error failure => ⟨1, print [failure.message]⟩
    | .ok () =>
      let values := run.given.getD values
      repeatRuns settings script (index + 1) values
        { run.shared with output := print (summary index script.vars.names values) } count

/-- Loads a text and runs it `count` times on variables that start at zero, or reports the problems
in it. -/
def run (settings : Settings) (text : String) (count : Int) (random : Random) : Outcome :=
  let script := Script.load text
  if script.isClean then
    let values := List.replicate script.vars.names.length 0.0
    repeatRuns settings script 1 values ⟨random, ""⟩ count.toNat
  else ⟨1, Text.unlines script.report⟩

end Batch

end FormulaScript
