import FormulaScript.Text.Blank
import FormulaScript.Text.Quoted

/-! The source of a script, cut into units. A unit is a piece of one line: it ends at the end of
the line, after a semicolon, and before and after a brace. Comments are left out, blanks collapse,
and texts in double quotes, which end with their line at the latest, are kept as they are. -/

namespace FormulaScript.Script

open Text

/-- A piece of a script without blanks at its ends, and the line that it stands on. -/
structure SourceUnit where
  line : Nat
  text : List Char
deriving DecidableEq, Repr

/-- The unit with its parts named. -/
def SourceUnit.inspect (unit : SourceUnit) : String :=
  s!"SourceLine({unit.line}, {quoted (String.ofList unit.text)})"

/-- What the characters read so far have opened. -/
inductive Mode
  | code
  | string
  | lineComment
  | blockComment
deriving DecidableEq, Repr

/-- The mode in which the next line starts. Only block comments go on. -/
def Mode.nextLine : Mode → Mode
  | .blockComment => .blockComment
  | _ => .code

/-- The unit that ends here, from its characters in reverse; none if they are all blank. -/
def flush (line : Nat) (pending : List Char) : List SourceUnit :=
  let text := trim pending.reverse
  if text.isEmpty then [] else [⟨line, text⟩]

/-- Puts a character of code in front of the reversed characters of a unit. A run of spaces, tabs
and carriage returns becomes one space, or nothing at the start of the unit. -/
def push (pending : List Char) (c : Char) : List Char :=
  if c = ' ' || c = '\t' || c = '\r' then
    if pending.isEmpty || pending.head? = some ' ' then pending else ' ' :: pending
  else c :: pending

/-- The units of a text that starts in a mode and on a line, after the reversed characters of a
unit that is not complete. -/
def unitsFrom : Mode → List Char → Nat → List Char → List SourceUnit
  | _, pending, line, [] => flush line pending
  | mode, pending, line, '\n' :: rest =>
    flush line pending ++ unitsFrom mode.nextLine [] (line + 1) rest
  | .blockComment, pending, line, '*' :: '/' :: rest => unitsFrom .code pending line rest
  | .blockComment, pending, line, _ :: rest => unitsFrom .blockComment pending line rest
  | .lineComment, pending, line, _ :: rest => unitsFrom .lineComment pending line rest
  | .string, pending, line, c :: rest =>
    unitsFrom (if c = '"' then .code else .string) (c :: pending) line rest
  | .code, pending, line, '"' :: rest => unitsFrom .string ('"' :: pending) line rest
  | .code, pending, line, '/' :: '*' :: rest => unitsFrom .blockComment pending line rest
  | .code, pending, line, '/' :: '/' :: rest => unitsFrom .lineComment pending line rest
  | .code, pending, line, '#' :: rest => unitsFrom .lineComment pending line rest
  | .code, pending, line, c :: rest =>
    if c = '{' || c = '}' then
      flush line pending ++ ⟨line, [c]⟩ :: unitsFrom .code [] line rest
    else if c = ';' then flush line (';' :: pending) ++ unitsFrom .code [] line rest
    else unitsFrom .code (push pending c) line rest

theorem unitsFrom_nil (mode : Mode) (pending : List Char) (line : Nat) :
    unitsFrom mode pending line [] = flush line pending := by
  rw [unitsFrom]

/-- The units of a script. -/
def units (script : List Char) : List SourceUnit := unitsFrom .code [] 1 script

end FormulaScript.Script
