import FormulaScript.Text.Location

/-! A cursor that reads a source one character at a time and knows its line and column. -/

namespace FormulaScript.Text

/-- A source and the index of the next character to read; the index may lie past the end. -/
structure Cursor where
  source : List Char
  position : Nat := 0
  location : Location := {}

/-- The failure of reading at or past the end of the source. -/
structure PastEnd where
  position : Nat

/-- What is said about reading past the end. -/
def PastEnd.message (failure : PastEnd) : String :=
  s!"CharacterStream: read past end of source at position {failure.position}"

namespace Cursor

/-- Reads the next character. -/
def next (cursor : Cursor) : Except PastEnd (Char × Cursor) :=
  match cursor.source[cursor.position]? with
  | none => .error ⟨cursor.position⟩
  | some c =>
    .ok (c, { cursor with
      position := cursor.position + 1, location := cursor.location.after c })

/-- The character at an offset, forward or backward, from the next one. -/
def peek (cursor : Cursor) (offset : Int) : Option Char :=
  let index := cursor.position + offset
  if index < 0 then none else cursor.source[index.toNat]?

/-- Whether nothing is left to read. A NUL ends the text as its end does. -/
def atEnd (cursor : Cursor) : Bool :=
  match cursor.source[cursor.position]? with
  | none => true
  | some c => c = '\x00'

end Cursor

end FormulaScript.Text
