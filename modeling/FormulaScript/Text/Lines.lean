/-! Lines of text. A line is ended by a line feed in all that is printed; text from outside may
end its lines with a carriage return, or with both. -/

namespace FormulaScript.Text

/-- Lines of text, each with a line feed after it. -/
def unlines (lines : List String) : String := String.join (lines.map (· ++ "\n"))

/-- The text with a line feed for every line end. A carriage return ends a line, together with a
line feed that follows it. -/
def unifyLineEnds : List Char → List Char
  | '\r' :: '\n' :: rest => '\n' :: unifyLineEnds rest
  | '\r' :: rest => '\n' :: unifyLineEnds rest
  | c :: rest => c :: unifyLineEnds rest
  | [] => []

theorem unifyLineEnds_eq_self {text : List Char} (h : '\r' ∉ text) : unifyLineEnds text = text := by
  fun_induction unifyLineEnds text <;> simp_all

theorem cr_not_mem_unifyLineEnds (text : List Char) : '\r' ∉ unifyLineEnds text := by
  fun_induction unifyLineEnds text <;> simp_all [eq_comm]

end FormulaScript.Text
