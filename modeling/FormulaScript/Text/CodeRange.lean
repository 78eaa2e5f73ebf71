/-! Sets of characters given by a table of code point ranges. -/

namespace FormulaScript.Text

/-- Whether a character lies in one of the given ranges of code points, ends included. -/
def inRanges (ranges : List (Nat × Nat)) (c : Char) : Bool :=
  ranges.any fun range => range.1 ≤ c.toNat && c.toNat ≤ range.2

end FormulaScript.Text
