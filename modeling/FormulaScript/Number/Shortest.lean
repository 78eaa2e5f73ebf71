import FormulaScript.Number.Decimal

/-! The shortest decimal that reads back as a given double. For 1, 2, … 17 significant digits the
two neighbours of the value on that decimal grid are tried; the first grid with one that reads back
wins, of two such neighbours the nearer, and the one with an even last digit of two equally near. -/

namespace FormulaScript.Number

/-- Whether `digits · 10 ^ power` reads back as the double `x`. -/
def readsBack (x : Float) (digits : Nat) (power : Int) : Bool :=
  let (num, den) := scaleByTen digits 1 power
  nearestBits num den = magnitudeBits x

/-- The decimal of `places` digits that reads back as `x`, if the grid has one. -/
def shortestOf? (x : Float) (places : Nat) : Option Decimal :=
  let exponent := decimalExponent (scaled x) unitsPerOne
  let power := exponent - (places - 1)
  let (top, bottom) := scaleByTen (scaled x) unitsPerOne (-power)
  let below := top / bottom
  let pick (digits : Nat) : Decimal :=
    if digits = Nat.pow 10 places then ⟨decimalDigits (Nat.pow 10 (places - 1)), exponent + 1⟩
    else ⟨decimalDigits digits, exponent⟩
  match readsBack x below power, readsBack x (below + 1) power with
  | true, true => some (pick (divNearest top bottom))
  | true, false => some (pick below)
  | false, true => some (pick (below + 1))
  | false, false => none

/-- The shortest decimal of a positive finite double. Seventeen digits always read back. -/
def shortestDecimal (x : Float) : Decimal :=
  (List.range' 1 17).findSome? (shortestOf? x) |>.getD (.ofQuotient 17 (scaled x) unitsPerOne)

/-- A double in the fewest digits that read back, positional below `10 ^ 16`, an integer with
`.0`. -/
def shortest (x : Float) : String := Layout.text ⟨16, true⟩ shortestDecimal x

end FormulaScript.Number
