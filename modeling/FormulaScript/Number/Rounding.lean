import FormulaScript.Number.Binary64

/-! Rounding of doubles to integers, and the remainder of a division truncated toward zero. All of
these are exact: their results are doubles again, with the sign of the argument, also of a zero. -/

namespace FormulaScript.Number

/-- The integer part of a double. -/
def truncate (x : Float) : Float :=
  if isFinite x then ofScaled (isNegative x) (scaled x / unitsPerOne * unitsPerOne) else x

/-- Half a unit is added away from zero and the sum, itself rounded to a double, is truncated. -/
def roundHalfAway (x : Float) : Float :=
  truncate (if x < 0.0 then x - 0.5 else x + 0.5)

/-- The remainder of `x` by `y` with the sign of `x`. -/
def remainder (x y : Float) : Float :=
  if !isFinite x || y.isNaN || y == 0.0 then notANumber
  else if !isFinite y then x
  else ofScaled (isNegative x) (scaled x % scaled y)

/-- The integer part of a finite double. -/
def integerPart (x : Float) : Int :=
  let whole : Int := scaled x / unitsPerOne
  if isNegative x then -whole else whole

end FormulaScript.Number
