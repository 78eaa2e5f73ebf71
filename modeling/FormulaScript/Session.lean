import FormulaScript.Script
import FormulaScript.Text.Lines

/-! Sessions: a script that is defined once and run as often as asked, and single lines that run on
the same variables. The values of the variables stay from one run to the next. -/

namespace FormulaScript

/-- A session: the text last given as its script, the script as it was last parsed, whether that
text has defined it, and the values of its variables. -/
structure Session where
  settings : Settings
  shared : Shared
  text : String := ""
  script : Script := {}
  isDefined : Bool := false
  values : List Float := []

namespace Session

/-- Adds to the output. -/
def print (text : String) (session : Session) : Session :=
  { session with shared := { session.shared with output := session.shared.output ++ text } }

/-- Adds lines to the output. -/
def printLines (lines : List String) (session : Session) : Session :=
  session.print (Text.unlines lines)

/-- Defines the script. A blank text leaves nothing defined, and so does a text with problems,
which are printed. All values are zero after it. -/
def define (text : String) (session : Session) : Session :=
  let session := { session with text, values := [], isDefined := false }
  if (Text.trim text.toList).isEmpty then session
  else
    let script := Script.load text
    let session := { session with script }
    if script.isClean then
      { session with
        isDefined := true, values := List.replicate script.vars.names.length 0.0 }
    else session.printLines script.report

/-- A new session. A text that is not empty is defined as its script. -/
def start (text : String) (settings : Settings) (random : Random) : Session :=
  let session : Session := { settings, shared := ⟨random, ""⟩ }
  if text.isEmpty then session else session.define text

/-- The names of the variables; none unless a script is defined. -/
def names (session : Session) : List String :=
  if session.isDefined then session.script.vars.names else []

/-- What a run leaves of the session. A failure is printed. -/
def afterRun (run : Run Unit) (session : Session) : Session :=
  let session := { session with shared := run.shared, values := run.given.getD session.values }
  match run.result with
  | .ok () => session
  | .error failure => session.printLines [failure.message]

/-- Runs the script that was last parsed once. -/
def run (session : Session) : Session :=
  let run := session.script.evaluate session.settings (some session.values) session.shared
  { session.afterRun run with script := { session.script with vars := run.vars } }

/-- Prints the names and values of the variables. -/
def showVariables (session : Session) : Session :=
  session.printLines (List.zipWith valueLine session.names session.values)

/-- A line as a script: with a semicolon added unless a semicolon or a brace ends it. -/
def statementText (line : String) : String :=
  match (Text.trimRight line.toList).getLast? with
  | some ';' | some '\x7d' => line
  | _ => line ++ ";"

/-- Runs a line as a script on the variables of the session, and says whether it parses. Problems
are printed. -/
def runLine (line : String) (session : Session) : Bool × Session :=
  let script := Script.parse (statementText line) session.names
  if script.isClean then
    (true, session.afterRun (script.evaluate session.settings (some session.values) session.shared))
  else (false, session.printLines (script.report "Equation contains"))

end Session

end FormulaScript
