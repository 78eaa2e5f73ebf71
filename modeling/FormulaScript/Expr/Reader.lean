import FormulaScript.Diagnostic
import FormulaScript.Token
import FormulaScript.Variables

/-! The state of reading an expression from its tokens, and the steps on it. Reading goes on after
an unknown variable, so that every one of them is reported, and stops at any other fault; the
diagnostics and variables met until then are kept in either case. -/

namespace FormulaScript

/-- How far an expression is read, and what was found on the way. With `autoAdd` unknown names
become variables. -/
structure Reader where
  rest : List Token
  position : Nat := 0
  vars : Variables
  autoAdd : Bool
  diagnostics : List Diagnostic := []

/-- The sign that reading has stopped at a fault, which is already reported. -/
inductive Stopped
  | stopped

/-- A step of reading. -/
abbrev Read := EStateM Stopped Reader

namespace Reader

/-- The token that stands for the end when the list of tokens has none. -/
def finish : Token := ⟨.finish, "", 0, {}⟩

/-- The next token. -/
def next (reader : Reader) : Token := reader.rest.head?.getD finish

/-- The reader after the next token. Past the last token only the position moves. -/
def skip (reader : Reader) : Reader :=
  { reader with rest := reader.rest.tail, position := reader.position + 1 }

/-- The reader with one more diagnostic, at a token. -/
def report (problem : Problem) (token : Token) (reader : Reader) : Reader :=
  { reader with
    diagnostics := reader.diagnostics ++ [⟨problem, none, some token.position⟩] }

end Reader

namespace Read

/-- The next token, which stays. -/
def peek : Read Token := return (← get).next

/-- Reads the next token, whatever it is. -/
def take : Read Token := do
  let token ← peek
  modify Reader.skip
  return token

/-- Reports a problem and reads on. -/
def report (problem : Problem) (token : Token) : Read Unit :=
  modify (Reader.report problem token)

/-- Reports a problem and stops. -/
def fail (problem : Problem) (token : Token) : Read α := do
  report problem token
  throw .stopped

/-- Reports a problem at the next token and stops. -/
def failHere (problem : Problem) : Read α := do fail problem (← peek)

/-- Whether the next token is a delimiter with the given text. -/
def sees (text : String) : Read Bool := return (← peek).isDelimiter text

/-- Reads the next token if it is a delimiter with the given text, and says whether it did. -/
def accept (text : String) : Read Bool := do
  if ← sees text then
    modify Reader.skip
    return true
  return false

/-- Reads a closing parenthesis. -/
def close : Read Unit := do
  unless ← accept ")" do failHere .unbalancedParentheses

end Read

end FormulaScript
