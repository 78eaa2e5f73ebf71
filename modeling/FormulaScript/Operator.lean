import FormulaScript.Number.Rounding
import FormulaScript.Number.Tolerance
import FormulaScript.Random

/-! The operators and functions of expressions: how they are written, and what they compute. -/

namespace FormulaScript

/-- A function of one number. -/
inductive UnaryFunction
  | negate
  | sqrt
  | cbrt
  | exp
  | log
  | log10
  | sin
  | cos
  | tan
  | asin
  | acos
  | atan
  | sinh
  | cosh
  | tanh
  | asinh
  | acosh
  | atanh
  | ceil
  | floor
  | fabs
  | sign
  | round
  | degToRad
  | radToDeg
deriving DecidableEq, Repr

namespace UnaryFunction

/-- The function as it is written. -/
def symbol : UnaryFunction → String
  | negate => "-"
  | sqrt => "sqrt"
  | cbrt => "cbrt"
  | exp => "exp"
  | log => "log"
  | log10 => "log10"
  | sin => "sin"
  | cos => "cos"
  | tan => "tan"
  | asin => "asin"
  | acos => "acos"
  | atan => "atan"
  | sinh => "sinh"
  | cosh => "cosh"
  | tanh => "tanh"
  | asinh => "asinh"
  | acosh => "acosh"
  | atanh => "atanh"
  | ceil => "ceil"
  | floor => "floor"
  | fabs => "fabs"
  | sign => "sign"
  | round => "round"
  | degToRad => "degToRad"
  | radToDeg => "radToDeg"

/-- The value of the function. The sign of a zero or a NaN is 1. -/
def apply : UnaryFunction → Float → Float
  | negate => (- ·)
  | sqrt => Float.sqrt
  | cbrt => Float.cbrt
  | exp => Float.exp
  | log => Float.log
  | log10 => Float.log10
  | sin => Float.sin
  | cos => Float.cos
  | tan => Float.tan
  | asin => Float.asin
  | acos => Float.acos
  | atan => Float.atan
  | sinh => Float.sinh
  | cosh => Float.cosh
  | tanh => Float.tanh
  | asinh => Float.asinh
  | acosh => Float.acosh
  | atanh => Float.atanh
  | ceil => Float.ceil
  | floor => Float.floor
  | fabs => Float.abs
  | sign => fun x => if x < 0.0 then -1.0 else 1.0
  | round => Number.roundHalfAway
  | degToRad => (· * (pi / 180.0))
  | radToDeg => (· * (180.0 / pi))

end UnaryFunction

/-- An operation on one operand. -/
inductive UnaryOp
  /-- A function of the operand's value. -/
  | function (function : UnaryFunction)
  /-- Reseeds the random source with the operand's value. -/
  | rands
deriving DecidableEq, Repr

/-- The operation as it is written. -/
def UnaryOp.symbol : UnaryOp → String
  | function f => f.symbol
  | rands => "rands"

/-- An operation on two numbers that yields a number. -/
inductive Arithmetic
  | add
  | sub
  | mul
  | div
  | mod
  /-- A power written with an operator. -/
  | caret
  /-- A power written as a function. -/
  | pow
  | atan2
  | min
  | max
deriving DecidableEq, Repr

namespace Arithmetic

/-- The operation as it is written. -/
def symbol : Arithmetic → String
  | add => "+"
  | sub => "-"
  | mul => "*"
  | div => "/"
  | mod => "%"
  | caret => "^"
  | pow => "pow"
  | atan2 => "atan2"
  | min => "min"
  | max => "max"

/-- The value of the operation. When the operands do not compare, the smaller is the second and the
greater the first. -/
def apply : Arithmetic → Float → Float → Float
  | add, a, b => a + b
  | sub, a, b => a - b
  | mul, a, b => a * b
  | div, a, b => a / b
  | mod, a, b => Number.remainder a b
  | caret, a, b => Float.pow a b
  | pow, a, b => Float.pow a b
  | atan2, a, b => Float.atan2 a b
  | min, a, b => if a < b then a else b
  | max, a, b => if a < b then b else a

end Arithmetic

/-- A comparison of two numbers. -/
inductive Comparison
  | equal
  | notEqual
  | less
  | greater
  | atMost
  | atLeast
deriving DecidableEq, Repr

namespace Comparison

/-- The comparison as it is written. -/
def symbol : Comparison → String
  | equal => "=="
  | notEqual => "!="
  | less => "<"
  | greater => ">"
  | atMost => "<="
  | atLeast => ">="

/-- Whether the comparison holds. The strict ones are exact, the others up to the tolerance. -/
def holds (tolerance : Int) : Comparison → Float → Float → Bool
  | equal, a, b => Number.isEqual tolerance a b
  | notEqual, a, b => !Number.isEqual tolerance a b
  | less, a, b => a < b
  | greater, a, b => a > b
  | atMost, a, b => Number.isAtMost tolerance a b
  | atLeast, a, b => Number.isAtLeast tolerance a b

end Comparison

/-- An operation on two operands, both of which are always evaluated. -/
inductive BinaryOp
  | arithmetic (op : Arithmetic)
  | comparison (op : Comparison)
  /-- Both operands are true. -/
  | both
  /-- One of the operands is true. -/
  | either
  /-- A uniform draw between the operands. -/
  | urand
  /-- A normal draw with the mean and the standard deviation that the operands give. -/
  | nrand
  /-- A symbol without meaning. -/
  | unknown (symbol : String)
deriving DecidableEq, Repr

/-- The operation as it is written. -/
def BinaryOp.symbol : BinaryOp → String
  | arithmetic op => op.symbol
  | comparison op => op.symbol
  | both => "&&"
  | either => "||"
  | urand => "urand"
  | nrand => "nrand"
  | unknown symbol => symbol

/-- The names that stand for a fixed value. -/
def constants : List (String × Float) := [("PI", pi)]

/-- A function that an expression can call, apart from `print`. -/
inductive Builtin
  | unary (op : UnaryOp)
  | binary (op : BinaryOp)
  | conditional
deriving DecidableEq, Repr

namespace Builtin

/-- The functions of one argument by name; two of them have a second name. -/
def unaryNames : List (String × UnaryOp) :=
  [("sqrt", .function .sqrt), ("cbrt", .function .cbrt), ("exp", .function .exp),
   ("log", .function .log), ("ln", .function .log), ("log10", .function .log10),
   ("sin", .function .sin), ("cos", .function .cos), ("tan", .function .tan),
   ("asin", .function .asin), ("acos", .function .acos), ("atan", .function .atan),
   ("sinh", .function .sinh), ("cosh", .function .cosh), ("tanh", .function .tanh),
   ("asinh", .function .asinh), ("acosh", .function .acosh), ("atanh", .function .atanh),
   ("ceil", .function .ceil), ("floor", .function .floor), ("fabs", .function .fabs),
   ("abs", .function .fabs), ("sign", .function .sign), ("round", .function .round),
   ("degToRad", .function .degToRad), ("radToDeg", .function .radToDeg), ("rands", .rands)]

/-- The functions of two arguments by name. -/
def binaryNames : List (String × BinaryOp) :=
  [("pow", .arithmetic .pow), ("atan2", .arithmetic .atan2), ("min", .arithmetic .min),
   ("max", .arithmetic .max), ("urand", .urand), ("nrand", .nrand)]

/-- The function of a name. -/
def ofName? (name : String) : Option Builtin :=
  if name = "if" then some .conditional
  else ((unaryNames.lookup name).map .unary).or ((binaryNames.lookup name).map .binary)

/-- The number of arguments of a function. -/
def arity : Builtin → Nat
  | unary _ => 1
  | binary _ => 2
  | conditional => 3

end Builtin

end FormulaScript
