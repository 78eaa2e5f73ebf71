import FormulaScript.Console.Batch
import FormulaScript.Console.EquationMode
import FormulaScript.Console.ScriptMode
import FormulaScript.Console.Usage

/-! What a command line starts: help, one of the two modes, or batch runs. The text of a script
comes from the command line or from a file; how files are read is up to the caller. -/

namespace FormulaScript

/-- What the program does. -/
inductive Activity
  | help
  | equations (tolerance : Int) (verbose : Bool)
  | script (text : String) (tolerance : Int)
  | batch (text : String) (count : Int) (tolerance : Int)
deriving DecidableEq, Repr

/-- Why the program does nothing. -/
inductive Refusal
  | usage (problem : UsageError)
  /-- A script file that cannot be read. -/
  | unreadable (path reason : String)
deriving DecidableEq, Repr

namespace Refusal

/-- The exit status of the program. -/
def status : Refusal → Nat
  | usage _ => 2
  | unreadable .. => 1

/-- What the program prints; a complaint about the command line is not part of its output. -/
def output : Refusal → String
  | usage _ => ""
  | unreadable path reason => s!"Cannot open file '{path}': {reason}\n"

/-- What the program says apart from its output. -/
def complaint : Refusal → List String
  | usage problem => Usage.complaint problem
  | unreadable .. => []

end Refusal

namespace Activity

/-- The activity with the text of a script: batch runs if a number of them is given. -/
def ofScript (options : Options) (text : String) : Except Refusal Activity :=
  match options.runs with
  | none => .ok (script text options.tolerance)
  | some count =>
    if (Text.trim text.toList).isEmpty then .error (.usage .nothingToRun)
    else if count < 1 then .error (.usage .runsNotPositive)
    else .ok (batch text count options.tolerance)

variable {m : Type → Type} [Monad m]

/-- The text of the script: the one on the command line, or the contents of the file, with its line
ends unified. An empty path names no file. -/
def scriptText (readFile : String → m (Except String String)) (options : Options) :
    m (Except Refusal String) :=
  match options.file with
  | none | some "" => return .ok (options.script.getD "")
  | some path => do
    match ← readFile path with
    | .ok text => return .ok (String.ofList (Text.unifyLineEnds text.toList))
    | .error reason => return .error (.unreadable path reason)

/-- The activity of a command line that sets some options. -/
def ofOptions (readFile : String → m (Except String String)) (options : Options) :
    m (Except Refusal Activity) := do
  if options.simpleMode then
    if options.runs.isSome then return .error (.usage .nothingToRun)
    else return .ok (equations options.tolerance options.verbose)
  else return (← scriptText readFile options) >>= ofScript options

/-- The activity of a command line. -/
def ofArguments (readFile : String → m (Except String String)) (arguments : List String) :
    m (Except Refusal Activity) :=
  match Options.ofArguments arguments with
  | .error .help => return .ok help
  | .error (.usage problem) => return .error (.usage problem)
  | .ok options => ofOptions readFile options

/-- The outcome of an activity whose input is some lines. -/
def outcome (random : Random) (lines : List String) : Activity → Outcome
  | help => ⟨0, Text.unlines Usage.manual⟩
  | equations tolerance verbose =>
    ⟨0, EquationMode.dialogue.transcriptFrom (EquationMode.start tolerance verbose random) lines⟩
  | script text tolerance =>
    ⟨0, ScriptMode.dialogue.transcriptFrom (ScriptMode.start text { tolerance } random) lines⟩
  | batch text count tolerance => Batch.run { tolerance } text count random

end Activity

end FormulaScript
