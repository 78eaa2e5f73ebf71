import FormulaScript.Number.Decimal
import FormulaScript.Text.Quoted

/-! Variables: distinct names in order, each with the slot that holds its value. A name keeps its
place once it has one. -/

namespace FormulaScript

/-- Names in slot order, their values, and the number of names up to which new ones are taken. -/
structure Variables where
  names : List String := []
  values : List Float := []
  capacity : Option Nat := none

namespace Variables

/-- Appends a name with the value zero. -/
def append (vars : Variables) (name : String) : Variables :=
  { vars with names := vars.names ++ [name], values := vars.values ++ [0.0] }

/-- The variables of a list of names; a repeated name keeps its first place. The capacity does not
limit these names. -/
def ofNames (names : List String) (capacity : Option Nat := none) : Variables :=
  names.foldl (fun vars name =>
    if vars.names.contains name then vars else vars.append name) { capacity }

/-- The slot of a name. -/
def indexOf? (vars : Variables) (name : String) : Option Nat := vars.names.idxOf? name

/-- Whether a name has a slot. -/
def contains (vars : Variables) (name : String) : Bool := vars.names.contains name

/-- Whether no new name is taken. -/
def isFull (vars : Variables) : Bool :=
  vars.capacity.any (· ≤ vars.names.length)

/-- The slot of a name, new if the name is; none if there is no room for a new name. -/
def add (vars : Variables) (name : String) : Option Nat × Variables :=
  match vars.indexOf? name with
  | some index => (some index, vars)
  | none =>
    if vars.isFull then (none, vars)
    else (some vars.names.length, vars.append name)

/-- The names in slot order, quoted. -/
def inspect (vars : Variables) : String :=
  "VariableTable(" ++ Text.quotedList vars.names ++ ")"

end Variables

/-- A variable as it is shown, with its value. -/
def valueLine (name : String) (value : Float) : String := s!"{name} = {Number.format value}"

end FormulaScript
