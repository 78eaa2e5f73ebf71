import FormulaScript.Number.Literal
import FormulaScript.Text.Blank

/-! Integers as text on their own: digits of any script after an optional sign, with single
underscores between them if any. Blanks around the integer do not count. -/

namespace FormulaScript.Number

open Text

/-- The number of digits beyond which a text is not read as an integer. -/
def digitLimit : Nat := 4300

/-- Whether a character is a blank that may stand around an integer: all of them may but the four
information separators. -/
def isOuterBlank (c : Char) : Bool := isBlank c && !inRanges [(0x1c, 0x1f)] c

/-- The values of the digits of a text in which single underscores may stand between digits. -/
def groupedDigits? : List Char → Option (List Nat)
  | [] => none
  | [c] => (decimalValue? c).map ([·])
  | c :: '_' :: rest => do return (← decimalValue? c) :: (← groupedDigits? rest)
  | c :: rest => do return (← decimalValue? c) :: (← groupedDigits? rest)

/-- The magnitude of an integer without its sign. -/
def magnitude? (text : List Char) : Option Nat :=
  ((groupedDigits? text).filter (·.length ≤ digitLimit)).map (ofDigits 10)

/-- The integer of a text. -/
def signedInteger? (text : String) : Option Int :=
  let inner := ((text.toList.dropWhile isOuterBlank).reverse.dropWhile isOuterBlank).reverse
  match inner with
  | '-' :: digits => (magnitude? digits).map fun n => -(n : Int)
  | '+' :: digits => (magnitude? digits).map Int.ofNat
  | digits => (magnitude? digits).map Int.ofNat

end FormulaScript.Number
