import FormulaScript.Console.Activity

/-! The program: it reads the command line, the script file and the typed lines, and prints. -/

namespace FormulaScript.Terminal

/-- The contents of a file, or the reason of the system why they cannot be read. -/
def fileText (path : String) : IO (Except String String) := do
  try
    return .ok (← IO.FS.readFile path)
  catch failure =>
    match failure with
    | .noFileOrDirectory _ _ reason | .permissionDenied _ _ reason
    | .inappropriateType _ _ reason => return .error reason.capitalize
    | other => return .error (toString other)

/-- Shows a text at once. -/
def display (text : String) : IO Unit := do
  let stdout ← IO.getStdout
  stdout.putStr text
  stdout.flush

/-- Holds a dialogue with the user, from an answer on. -/
partial def converse (dialogue : Dialogue σ) (answer : Answer σ) : IO Unit := do
  display answer.text
  if let some state := answer.next then
    display (dialogue.prompt state)
    let line ← (← IO.getStdin).getLine
    if line.isEmpty then display Dialogue.endOfInput
    else converse dialogue (dialogue.answer (line.dropSuffix "\n").toString state)

/-- A source of random numbers that differs from one start of the program to the next. -/
def freshRandom : IO Random := do
  let bytes ← IO.getRandomBytes 4
  return .unseeded (bytes.foldl (fun word byte => (word <<< 8) ||| byte.toUInt32) 0)

/-- Carries an activity out and gives the exit status. -/
def perform (random : Random) (activity : Activity) : IO UInt32 := do
  match activity with
  | .equations tolerance verbose =>
    converse EquationMode.dialogue (EquationMode.start tolerance verbose random)
    return 0
  | .script text tolerance =>
    converse ScriptMode.dialogue (ScriptMode.start text { tolerance } random)
    return 0
  | activity =>
    let outcome := activity.outcome random []
    display outcome.output
    return UInt32.ofNat outcome.status

end FormulaScript.Terminal

open FormulaScript

/-- Runs the program on a command line. -/
def main (arguments : List String) : IO UInt32 := do
  match ← Activity.ofArguments Terminal.fileText arguments with
  | .ok activity => Terminal.perform (← Terminal.freshRandom) activity
  | .error refusal =>
    Terminal.display refusal.output
    (← IO.getStderr).putStr (Text.unlines refusal.complaint)
    return UInt32.ofNat refusal.status
