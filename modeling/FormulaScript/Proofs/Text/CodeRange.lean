import FormulaScript.Text.Blank
import FormulaScript.Text.Digit
import FormulaScript.Text.Letter

/-!
# Classes of characters

The tables of the blanks, the digits and the letters have no code point in common.
-/

namespace FormulaScript.Text

/-- No range of one table meets a range of the other. -/
def apart (ranges others : List (Nat × Nat)) : Bool :=
  ranges.all fun range => others.all fun other => Nat.blt other.2 range.1 || Nat.blt range.2 other.1

theorem inRanges_of_apart {ranges others : List (Nat × Nat)} (h : apart ranges others) {c : Char}
    (hc : inRanges ranges c) : inRanges others c = false := by
  obtain ⟨range, hr, hin⟩ := List.any_eq_true.1 hc
  refine Bool.eq_false_iff.2 fun ho => ?_
  obtain ⟨other, ho, hout⟩ := List.any_eq_true.1 ho
  have hmeet := List.all_eq_true.1 (List.all_eq_true.1 h range hr) other ho
  simp only [Bool.and_eq_true, Bool.or_eq_true, decide_eq_true_eq, Nat.blt_eq] at hin hout hmeet
  omega

/-- Code point ranges of the decimal digits. -/
def decimalRanges : List (Nat × Nat) := zeroDigits.map fun least => (least, least + 9)

theorem isDecimalDigit_eq (c : Char) : isDecimalDigit c = inRanges decimalRanges c := by
  rw [Bool.eq_iff_iff]
  simp [isDecimalDigit, decimalValue?, inRanges, decimalRanges, Nat.lt_succ_iff]

theorem isBlank_of_isDecimalDigit {c : Char} (h : isDecimalDigit c) : isBlank c = false :=
  inRanges_of_apart (by decide +kernel : apart decimalRanges blankRanges) (isDecimalDigit_eq c ▸ h)

theorem isBlank_of_isLetter {c : Char} (h : isLetter c) : isBlank c = false :=
  inRanges_of_apart (by decide +kernel) h

theorem isDigit_of_isLetter {c : Char} (h : isLetter c) : isDigit c = false := by
  rw [isDigit, isDecimalDigit_eq, Bool.or_eq_false_iff]
  exact ⟨inRanges_of_apart (by decide +kernel) h, inRanges_of_apart (by decide +kernel) h⟩

end FormulaScript.Text
