import FormulaScript.Number.Binary64

/-! Comparison of doubles up to a tolerance in units in the last place. `orderedBits` numbers the
doubles along a line of integers: neighbours are one apart and both zeros lie at 0. Infinities and
NaNs have their place on the line as any other word has. -/

namespace FormulaScript.Number

/-- The place of a double on the integer line. -/
def orderedBits (x : Float) : Int :=
  if isNegative x then -(magnitudeBits x : Int) else magnitudeBits x

/-- The largest distance in places at which values compare equal, unless a caller says otherwise. -/
def defaultTolerance : Int := 100

/-- Whether two doubles are at most `tolerance` places apart. -/
def isEqual (tolerance : Int) (a b : Float) : Bool :=
  (orderedBits a - orderedBits b).natAbs ≤ tolerance

/-- Whether `a` lies below `b`, or at most `tolerance` places above it. -/
def isAtMost (tolerance : Int) (a b : Float) : Bool :=
  if orderedBits a > orderedBits b then orderedBits b + tolerance ≥ orderedBits a else true

/-- Whether `a` lies above `b`, or at most `tolerance` places below it. -/
def isAtLeast (tolerance : Int) (a b : Float) : Bool := isAtMost tolerance b a

/-- The truth of a value: it is more than `tolerance` places away from zero. -/
def isTrue (tolerance : Int) (x : Float) : Bool := !isEqual tolerance x 0.0

/-- The number that stands for a truth value. -/
def ofBool (b : Bool) : Float := if b then 1.0 else 0.0

end FormulaScript.Number
