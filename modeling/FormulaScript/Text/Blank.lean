import FormulaScript.Text.CodeRange

/-! Blanks: the characters that separate tokens and that trimming removes. They are the characters
of general category Zs and those of bidirectional class WS, B or S, which takes in the controls
from tab to carriage return and the four information separators. -/

namespace FormulaScript.Text

/-- Code point ranges of the blanks, in ascending order. -/
def blankRanges : List (Nat × Nat) :=
  [(0x9, 0xd), (0x1c, 0x20), (0x85, 0x85), (0xa0, 0xa0), (0x1680, 0x1680), (0x2000, 0x200a),
   (0x2028, 0x2029), (0x202f, 0x202f), (0x205f, 0x205f), (0x3000, 0x3000)]

/-- Whether a character is a blank. -/
def isBlank (c : Char) : Bool := inRanges blankRanges c

theorem isBlank_of_isWhitespace {c : Char} (h : c.isWhitespace) : isBlank c := by
  simp only [Char.isWhitespace, Bool.or_eq_true, decide_eq_true_eq] at h
  obtain ((rfl | rfl) | rfl) | rfl := h <;> decide

/-- The text without its leading blanks. -/
def trimLeft (text : List Char) : List Char := text.dropWhile isBlank

/-- The text without its trailing blanks. -/
def trimRight (text : List Char) : List Char := (text.reverse.dropWhile isBlank).reverse

/-- The text without the blanks at its two ends. -/
def trim (text : List Char) : List Char := trimRight (trimLeft text)

end FormulaScript.Text
