/-! Lines and columns, both counted from 1. -/

namespace FormulaScript

/-- A place in a text. -/
structure Location where
  line : Nat := 1
  column : Nat := 1
deriving DecidableEq, Repr

/-- The place after a character that stands at a place. -/
def Location.after (location : Location) (c : Char) : Location :=
  if c = '\n' then ⟨location.line + 1, 1⟩ else ⟨location.line, location.column + 1⟩

/-- The place after a text that starts at a place. -/
def Location.advance (location : Location) (text : List Char) : Location :=
  text.foldl Location.after location

end FormulaScript
