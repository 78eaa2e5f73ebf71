import FormulaScript.Number.Binary64
import FormulaScript.Text.Digit

/-! Number literals. A literal is an integer with a radix mark (`0b`, `0o`, `0x`), or a decimal
with an optional point and exponent, in the decimal digits of any script. It stands for the nearest
double, ties to even, and for infinity beyond the largest. -/

namespace FormulaScript.Number

open Text

/-- The radix that the second character of a literal after `0` announces. -/
def radix? (c : Char) : Option Nat :=
  if c = 'b' || c = 'B' then some 2
  else if c = 'o' || c = 'O' then some 8
  else if c = 'x' || c = 'X' then some 16
  else none

/-- The value of a digit in a radix up to sixteen; only the digits and letters of ASCII count. -/
def digitValue? (radix : Nat) (c : Char) : Option Nat :=
  let value? :=
    if '0' ≤ c ∧ c ≤ '9' then some (c.toNat - '0'.toNat)
    else if 'a' ≤ c ∧ c ≤ 'f' then some (c.toNat - 'a'.toNat + 10)
    else if 'A' ≤ c ∧ c ≤ 'F' then some (c.toNat - 'A'.toNat + 10)
    else none
  value?.filter (· < radix)

/-- The number that a list of digit values denotes in a radix. -/
def ofDigits (radix : Nat) (digits : List Nat) : Nat := digits.foldl (· * radix + ·) 0

/-- The number that a non-empty text of digits denotes in a radix. -/
def integer? (value? : Char → Option Nat) (radix : Nat) (text : List Char) : Option Nat :=
  if text.isEmpty then none else (text.mapM value?).map (ofDigits radix)

/-- The digits of a decimal literal and the power of ten that its last digit counts. -/
structure Scientific where
  digits : Nat
  power : Int

/-- An exponent with its optional sign. -/
def exponent? : List Char → Option Int
  | '+' :: digits => (integer? decimalValue? 10 digits).map Int.ofNat
  | '-' :: digits => (integer? decimalValue? 10 digits).map fun n => -(n : Int)
  | digits => (integer? decimalValue? 10 digits).map Int.ofNat

/-- What follows the digits of a decimal literal: nothing, or an exponent mark and an exponent. -/
def exponentPart? : List Char → Option Int
  | [] => some 0
  | mark :: rest => if mark = 'e' || mark = 'E' then exponent? rest else none

/-- The digits after the point of a decimal literal, and what follows them. -/
def fractionPart : List Char → List Char × List Char
  | '.' :: rest => (rest.takeWhile isDecimalDigit, rest.dropWhile isDecimalDigit)
  | rest => ([], rest)

/-- Reads a decimal literal: digits with an optional point among or around them, and an optional
exponent. -/
def Scientific.ofText? (text : List Char) : Option Scientific := do
  let whole := text.takeWhile isDecimalDigit
  let (fraction, rest) := fractionPart (text.dropWhile isDecimalDigit)
  let digits ← integer? decimalValue? 10 (whole ++ fraction)
  let exponent ← exponentPart? rest
  return ⟨digits, exponent - fraction.length⟩

/-- The double nearest to a decimal. Powers of ten that lead far beyond the range of doubles are
not computed. -/
def Scientific.toFloat (s : Scientific) : Float :=
  if s.digits = 0 then 0.0
  else if 0 ≤ s.power then
    if 400 < s.power then infinity else nearest (s.digits * Nat.pow 10 s.power.toNat) 1
  else if 400 + s.digits.log2 < -s.power then 0.0
  else nearest s.digits (Nat.pow 10 (-s.power).toNat)

/-- The value of a number literal, if it is well formed. -/
def decode? (text : List Char) : Option Float :=
  let decimal := (Scientific.ofText? text).map Scientific.toFloat
  match text with
  | '0' :: mark :: digits =>
    match radix? mark with
    | some radix => (integer? (digitValue? radix) radix digits).map (nearest · 1)
    | none => decimal
  | _ => decimal

end FormulaScript.Number
