import FormulaScript.Console.Dialogue
import FormulaScript.Session

/-! The script mode: a script is defined line by line between `start` and `end`, run as often as
asked, and its variables are shown. Any other line runs as a script of its own on the same
variables. -/

namespace FormulaScript

/-- The state between two lines: the session, and the lines of a script that is being defined, the
last one first. The output of the session is empty. -/
structure ScriptMode where
  session : Session
  draft : Option (List String) := none

namespace ScriptMode

/-- The commands of the mode. -/
inductive Command
  | start
  | showScript
  | showVariables
  | run
deriving DecidableEq, Repr

/-- The command of a line. -/
def Command.ofLine? : String → Option Command
  | "start" => some .start
  | "script" => some .showScript
  | "variables" => some .showVariables
  | "run" => some .run
  | _ => none

/-- What a command is answered with that needs a defined script and finds none. -/
def notDefined : List String := [
  "The script is not defined. Type 'start' to define the",
  "script, and 'end' when you have finished."]

/-- The mode in a session, answering with what the session has printed. -/
def answerWith (session : Session) : Answer ScriptMode :=
  let shared := { session.shared with output := "" }
  ⟨session.shared.output, some ⟨{ session with shared }, none⟩⟩

/-- A text that ends its last line. -/
def endLine (text : String) : String := if text.endsWith "\n" then text else text ++ "\n"

/-- Answers a command. -/
def obey (command : Command) (session : Session) : Answer ScriptMode :=
  match command with
  | .start => ⟨"", some ⟨{ session with isDefined := false }, some []⟩⟩
  | .showScript => answerWith (inDefined (·.print (endLine session.text)))
  | .showVariables => answerWith (inDefined Session.showVariables)
  | .run => answerWith (inDefined Session.run)
where
  /-- Does something in a session that has a script defined. -/
  inDefined (act : Session → Session) : Session :=
    if session.isDefined then act session else session.printLines notDefined

/-- Answers a line that is neither blank, nor leaves, nor asks for help. -/
def perform (line : String) (mode : ScriptMode) : Answer ScriptMode :=
  match Command.ofLine? line with
  | some command => obey command mode.session
  | none => answerWith (mode.session.runLine line).2

/-- Takes a line of a script that is being defined, of which `draft` holds the earlier ones. -/
def edit (draft : List String) (line : String) (session : Session) : Answer ScriptMode :=
  if Text.trim line.toList = "end".toList then
    answerWith (session.define (Text.unlines draft.reverse))
  else ⟨"", some ⟨session, some (line :: draft)⟩⟩

/-- The text that announces the mode. -/
def banner : String := "Starting script mode.\nType 'help' to get some help.\n"

/-- The dialogue of the mode. -/
def dialogue : Dialogue ScriptMode where
  prompt mode := if mode.draft.isSome then "... " else Dialogue.mainPrompt
  answer line mode :=
    match mode.draft with
    | some draft => edit draft line mode.session
    | none => Dialogue.reply .script perform (.ofLine line) mode

/-- The opening of the mode: a text that is not empty is defined as the script, and the problems in
it are printed before the banner. -/
def start (text : String) (settings : Settings) (random : Random) : Answer ScriptMode :=
  let answer := answerWith (.start text settings random)
  { answer with text := answer.text ++ banner }

end ScriptMode

end FormulaScript
