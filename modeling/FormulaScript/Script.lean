import FormulaScript.Script.Assembly

/-! Scripts: a program with its variables, and what was wrong with the last text that was parsed. -/

namespace FormulaScript

/-- A script as it was last parsed. -/
structure Script where
  program : Program := .nil
  vars : Variables := {}
  diagnostics : List Diagnostic := []

namespace Script

/-- Whether nothing was wrong with the last text. -/
def isClean (script : Script) : Bool := script.diagnostics.isEmpty

/-- Parses a text over a fixed list of names, with all values zero. Without a clean parse there are
no statements. -/
def parse (text : String) (names : List String) : Script :=
  let assembled := assemble text.toList (.ofNames names (some names.length)) false
  let program := if assembled.diagnostics.isEmpty then assembled.program.getD .nil else .nil
  ⟨program, assembled.vars, assembled.diagnostics⟩

/-- The names in a text, in order of their first appearance, and what is wrong with it. -/
def harvest (text : String) : List String × List Diagnostic :=
  let assembled := assemble text.toList {} true
  (assembled.vars.names, assembled.diagnostics)

/-- A script without statements and variables, for a text with the given diagnostics. -/
def ofDiagnostics (diagnostics : List Diagnostic) : Script := { diagnostics }

/-- Parses a text over the names in it. If harvesting them finds something wrong, the script is left
empty. -/
def load (text : String) : Script :=
  let (names, diagnostics) := harvest text
  if diagnostics.isEmpty then parse text names else .ofDiagnostics diagnostics

/-- The failure of the last parse, if it failed. -/
def failure? (script : Script) : Option ParseError :=
  if script.isClean then none else some ⟨script.diagnostics⟩

/-- The last diagnostic as text, or no text. -/
def lastError (script : Script) : String := Diagnostic.lastText script.diagnostics

/-- The title of a report on a script. -/
def reportTitle : String := "The script contains"

/-- The diagnostics under a header. -/
def report (script : Script) (title : String := reportTitle) : List String :=
  Diagnostic.report title script.diagnostics

/-- Runs the program once on the script's variables, or on the values that the caller gives, as far
as they reach. -/
def evaluate (settings : Settings) (given : Option (List Float)) (shared : Shared)
    (script : Script) : Run Unit :=
  (script.program.run settings).runOn given script.vars shared

end Script

end FormulaScript
