import FormulaScript.Console.Help
import FormulaScript.Text.Lines

/-! Dialogues: a prompt, a line, an answer, and so on until a line leaves or the lines end. A mode
is a dialogue over a state of its own; all modes leave and ask for help in the same way. -/

namespace FormulaScript

/-- What follows a line: the text that answers it, and the state to go on from unless the line
leaves. -/
structure Answer (σ : Type) where
  text : String
  next : Option σ

/-- What a line asks for as far as all modes agree. Blanks around the line do not count. -/
inductive Request
  | nothing
  | leave
  | help (topic : String)
  | other (line : String)
deriving DecidableEq, Repr

/-- Reads a line. -/
def Request.ofLine (text : String) : Request :=
  let line := String.ofList (Text.trim text.toList)
  if line = "" then .nothing
  else if line = "exit" ∨ line = "quit" then .leave
  else (Help.topic? line).elim (.other line) .help

/-- A dialogue over a state: the prompt, and the answer to a line. -/
structure Dialogue (σ : Type) where
  prompt : σ → String
  answer : String → σ → Answer σ

namespace Dialogue

/-- The prompt for a new line of input. -/
def mainPrompt : String := ">>> "

/-- The text that answers a line which leaves. -/
def farewell : String := "Exiting.\n"

/-- The text that answers the end of the lines. -/
def endOfInput : String := "\nExiting.\n"

/-- Answers a request in the way of all modes; `other` answers the lines of the mode. -/
def reply (mode : Help.Mode) (other : String → σ → Answer σ) (request : Request) (state : σ) :
    Answer σ :=
  match request with
  | .nothing => ⟨"", some state⟩
  | .leave => ⟨farewell, none⟩
  | .help topic => ⟨Text.unlines (Help.lines mode topic), some state⟩
  | .other line => other line state

/-- All that is printed, from the prompt for the first line on. Lines after one that leaves are not
read. -/
def transcript (dialogue : Dialogue σ) : List String → σ → String
  | [], state => dialogue.prompt state ++ endOfInput
  | line :: rest, state =>
    let answer := dialogue.answer line state
    dialogue.prompt state ++ answer.text ++ answer.next.elim "" (dialogue.transcript rest)

/-- All that is printed after an opening, with the opening itself. -/
def transcriptFrom (dialogue : Dialogue σ) (opening : Answer σ) (lines : List String) : String :=
  opening.text ++ opening.next.elim "" (dialogue.transcript lines)

end Dialogue

end FormulaScript
