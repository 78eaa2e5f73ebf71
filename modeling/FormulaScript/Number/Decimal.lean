import FormulaScript.Number.Binary64

/-! Decimal text of doubles. A value is first rounded, exactly, to some number of significant
digits; a `Layout` then says how the digits are written. -/

namespace FormulaScript.Number

/-- A decimal `d₁.d₂d₃… · 10 ^ exponent` given by its significant digits. -/
structure Decimal where
  digits : List Char
  exponent : Int

/-- The decimal digits of a natural number, most significant first. -/
def decimalDigits (n : Nat) : List Char := Nat.toDigits 10 n

/-- The exponent of the power of ten at or below `num / den`, for a positive quotient. -/
def decimalExponent (num den : Nat) : Int :=
  if den ≤ num then (decimalDigits (num / den)).length - 1
  else
    let gap := (decimalDigits den).length - (decimalDigits num).length
    if den ≤ num * Nat.pow 10 gap then -gap else -(gap + 1 : Int)

/-- The numerator and denominator of a quotient scaled by a power of ten. -/
def scaleByTen (num den : Nat) (power : Int) : Nat × Nat :=
  if 0 ≤ power then (num * Nat.pow 10 power.toNat, den) else (num, den * Nat.pow 10 (-power).toNat)

/-- A positive quotient rounded to `places` significant digits, ties to even. A carry out of the
first digit moves the exponent. -/
def Decimal.ofQuotient (places num den : Nat) : Decimal :=
  let exponent := decimalExponent num den
  let (top, bottom) := scaleByTen num den (places - 1 - exponent)
  let rounded := divNearest top bottom
  if rounded = Nat.pow 10 places then ⟨decimalDigits (Nat.pow 10 (places - 1)), exponent + 1⟩
  else ⟨decimalDigits rounded, exponent⟩

/-- The digits without trailing zeros. -/
def dropTrailingZeros (digits : List Char) : List Char :=
  (digits.reverse.dropWhile (· == '0')).reverse

/-- How a decimal is written: positionally while its exponent is at least -4 and below
`positionalBelow`, and with an exponent of at least two digits and a sign otherwise. A positional
integer ends in `.0` when `keepsPoint` is set. -/
structure Layout where
  positionalBelow : Int
  keepsPoint : Bool

/-- The digits after the point, with the point. -/
def Layout.fraction (layout : Layout) (digits : List Char) : List Char :=
  if digits.isEmpty then (if layout.keepsPoint then ['.', '0'] else []) else '.' :: digits

/-- The exponent mark and its value. -/
def exponentText (exponent : Int) : List Char :=
  let digits := decimalDigits exponent.natAbs
  let padded := if digits.length < 2 then '0' :: digits else digits
  'e' :: (if exponent < 0 then '-' else '+') :: padded

/-- The text of a decimal without its trailing zeros. -/
def Layout.render (layout : Layout) (decimal : Decimal) : List Char :=
  let digits := dropTrailingZeros decimal.digits
  let exponent := decimal.exponent
  if exponent < -4 ∨ layout.positionalBelow ≤ exponent then
    digits.take 1 ++ (if digits.length ≤ 1 then [] else '.' :: digits.drop 1) ++
      exponentText exponent
  else if exponent < 0 then
    '0' :: '.' :: List.replicate (-exponent - 1).toNat '0' ++ digits
  else
    let whole := exponent.toNat + 1
    digits.take whole ++ List.replicate (whole - digits.length) '0' ++
      layout.fraction (digits.drop whole)

/-- The text of a double whose digits are chosen by `decimal?`, which is asked for a finite
positive magnitude only. -/
def Layout.text (layout : Layout) (decimal : Float → Decimal) (x : Float) : String :=
  let sign := if isNegative x then ['-'] else []
  if x.isNaN then "nan"
  else if !isFinite x then String.ofList (sign ++ "inf".toList)
  else if scaled x = 0 then String.ofList (sign ++ '0' :: layout.fraction [])
  else String.ofList (sign ++ layout.render (decimal x))

/-- A double with `places` significant digits (at least one), trailing zeros dropped, positional
while the exponent is below `places`. -/
def significant (places : Nat) (x : Float) : String :=
  let places := max places 1
  Layout.text ⟨places, false⟩ (fun x => .ofQuotient places (scaled x) unitsPerOne) x

/-- The magnitude of a finite double with `places` digits after the point (at least one), ties to
even. -/
def fixed (places : Nat) (x : Float) : String :=
  let digits := decimalDigits (divNearest (scaled x * Nat.pow 10 places) unitsPerOne)
  let padded := List.replicate (places + 1 - digits.length) '0' ++ digits
  let whole := padded.length - places
  String.ofList (padded.take whole ++ '.' :: padded.drop whole)

/-- The number of significant digits that results are shown with. -/
def printPrecision : Nat := 12

/-- A value as results and variables are shown. -/
def format (x : Float) : String := significant printPrecision x

end FormulaScript.Number
