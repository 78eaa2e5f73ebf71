/-! Exact values of doubles. Every finite double is an integer multiple of `2 ^ -1074`, so its
magnitude is held here as the natural number `scaled x` of such units, and a correctly rounded
operation is one division of naturals. `nearest num den` is the double nearest to `num / den`,
ties to even, and infinity from `2 ^ 1024 - 2 ^ 970` on.

A double's word, apart from the sign, is `p * 2 ^ 52 + m` for the significand `m` and the number
`p` of binary places that its unit lies above `2 ^ -1074`: a significand with its hidden bit adds
one to the exponent field by itself. The same carry turns a significand that rounds up to `2 ^ 53`
into the next binade, and the largest binade into infinity. -/

namespace FormulaScript.Number

/-- The word of a double without its sign bit. -/
def magnitudeBits (x : Float) : Nat := x.toBits.toNat % Nat.pow 2 63

/-- Whether the sign bit of a double is set. -/
def isNegative (x : Float) : Bool := Nat.pow 2 63 ≤ x.toBits.toNat

/-- The word of positive infinity. -/
def infinityBits : Nat := 2047 * Nat.pow 2 52

/-- Whether a double is neither infinite nor NaN. -/
def isFinite (x : Float) : Bool := magnitudeBits x < infinityBits

/-- The magnitude of a finite double as a multiple of `2 ^ -1074`. -/
def scaled (x : Float) : Nat :=
  let field := magnitudeBits x / Nat.pow 2 52
  let fraction := magnitudeBits x % Nat.pow 2 52
  if field = 0 then fraction else (Nat.pow 2 52 + fraction) * Nat.pow 2 (field - 1)

/-- The number of units `2 ^ -1074` in one. -/
def unitsPerOne : Nat := Nat.pow 2 1074

/-- The quotient of two naturals rounded to the nearest natural, a half to the even neighbour. -/
def divNearest (num den : Nat) : Nat :=
  let quotient := num / den
  let remainder := num % den
  if 2 * remainder < den then quotient
  else if den < 2 * remainder then quotient + 1
  else quotient + quotient % 2

/-- The word of the double nearest to a quotient of naturals. -/
def nearestBits (num den : Nat) : Nat :=
  let units := num * unitsPerOne
  let places := Nat.log2 (units / den) - 52
  min (places * Nat.pow 2 52 + divNearest units (den * Nat.pow 2 places)) infinityBits

/-- The double nearest to a quotient of naturals, ties to even. -/
def nearest (num den : Nat) : Float := Float.ofBits (UInt64.ofNat (nearestBits num den))

/-- A double or its negation. -/
def withSign (negative : Bool) (x : Float) : Float := if negative then -x else x

/-- The double of a given sign with a magnitude in units of `2 ^ -1074`. -/
def ofScaled (negative : Bool) (units : Nat) : Float :=
  withSign negative (nearest units unitsPerOne)

/-- Positive infinity. -/
def infinity : Float := Float.ofBits (UInt64.ofNat infinityBits)

/-- A NaN. -/
def notANumber : Float := 0.0 / 0.0

end FormulaScript.Number
