import FormulaScript.Operator
import FormulaScript.Number.Decimal
import FormulaScript.Text.Blank

/-! Help. A line `help` asks for help on the mode, and `help` with more text for help on a topic. A
topic that the mode does not know is answered with the help on the mode. -/

namespace FormulaScript.Help

/-- The mode that help is asked for in. -/
inductive Mode
  | equation
  | script
deriving DecidableEq, Repr

/-- What a line asks for help on: a topic, the mode (no text), or nothing. -/
def topic? (line : String) : Option String :=
  let text := Text.trimLeft line.toList
  let word := text.takeWhile (!Text.isBlank ·)
  if word = "help".toList then some (String.ofList (Text.trim (text.drop word.length))) else none

/-- The line that shows a constant, its name in a column of nine characters. -/
def constantLine (name : String) (value : Float) : String :=
  let gap := String.ofList (List.replicate (9 - name.length) ' ')
  "  - " ++ name ++ gap ++ " " ++ Number.fixed 6 value

/-- The topic on constants. -/
def constantTopic : List String :=
  "The recognized constants are:" :: constants.map fun (name, value) => constantLine name value

/-- The topic on functions. -/
def functionTopic : List String := [
  "The recognized functions are:",
  "  - sqrt(x)       The square root of x.",
  "  - cbrt(x)       The cubic root of x.",
  "  - pow(x, y)     x raised to the power of y.",
  "  - exp(x)        The exponential of x (e raised to the power of x).",
  "  - log10(x)      The base 10 logarithm of x.",
  "  - log(x)        The natural logarithm of x.",
  "  - ln(x)         Same as log(x).",
  "  - ceil(x)       Round x up.",
  "  - floor(x)      Round x down.",
  "  - round(x)      Round x to the nearest integer, halves away from zero.",
  "  - fabs(x)       Absolute value of x.",
  "  - abs(x)        Same as fabs(x).",
  "  - sign(x)       -1 if x is negative, 1 otherwise.",
  "  - cos(x), sin(x), tan(x), acos(x), asin(x), atan(x)",
  "                  Trigonometric functions (radians).",
  "  - atan2(y, x)   The arc tangent of y/x using the signs of both.",
  "  - cosh(x), sinh(x), tanh(x), acosh(x), asinh(x), atanh(x)",
  "                  Hyperbolic functions.",
  "  - degToRad(x)   Convert degrees to radians.",
  "  - radToDeg(x)   Convert radians to degrees.",
  "  - min(x, y)     The smaller of x and y.",
  "  - max(x, y)     The greater of x and y.",
  "  - urand(a, b)   Uniform random number between a and b.",
  "  - nrand(m, s)   Normal random number with mean m and standard deviation s.",
  "  - rands(n)      Seed the random generator with n and return the seed.",
  "  - if(x, y, z)   If x is true (not equal to zero) return y, otherwise z.",
  "  - print(...)    Print values and \"strings\" separated by spaces."]

/-- The topic on operators. -/
def operatorTopic : List String := [
  "The recognized operators are:",
  "  - x + y     Add y to x.",
  "  - x - y     Subtract y from x.",
  "  - x * y     Multiply x and y.",
  "  - x / y     Divide x by y.",
  "  - x % y     Remainder of x divided by y.",
  "  - x^y       Raise x to the power of y (same as pow(x, y)).",
  "  - +x or -x  Unary plus and minus operators.",
  "  - ++x, --x  Increment or decrement x and return the new value.",
  "  - x && y    Logical and (1 if x and y are both non zero).",
  "  - x || y    Logical or (1 if x or y is non zero).",
  "  - x == y    Test equality.",
  "  - x != y    Test inequality.",
  "  - x < y     1 if x is smaller than y.",
  "  - x <= y    1 if x is smaller than or equal to y.",
  "  - x > y     1 if x is greater than y.",
  "  - x >= y    1 if x is greater than or equal to y.",
  "  - x = y     Assignment (set x to y and return y).",
  "  - x += y, x -= y, x *= y, x /= y",
  "              Compound assignment."]

/-- The topic on scripts. -/
def scriptTopic : List String := [
  "A script consists of one or more mathematical expressions separated",
  "by a ';'. It can also contain conditional statements to control the",
  "flow of the execution. You can also use variables.",
  "Example:",
  "  variable1 = variable2 * 1.56325 + 17.4;",
  "  if (variable1 >= 0) \x7b",
  "    variable1 = sqrt(variable1);",
  "  \x7d",
  "  // This is a valid comment.",
  "  # This is another valid comment.",
  "  /* And so is this one. */",
  "  variable4 = 0;",
  "  if (variable1 > 1) \x7b",
  "    variable3 = 1 / sqrt(variable1 - 1);",
  "    variable4 = variable3 + 1;",
  "  \x7d else if (variable1 > 0) \x7b",
  "    variable3 = 1 / sqrt(variable1);",
  "    variable4 = variable3 - 1;",
  "  \x7d else \x7b",
  "    variable3 = 0;",
  "  \x7d",
  "  while (variable4 > 1) \x7b",
  "    variable4 = variable4 / 2;",
  "  \x7d"]

/-- The help on evaluating one expression after another. -/
def equationMode : List String := [
  "Evaluates C-like mathematical expressions.",
  "Type 'help topic' to get help on a specific topic.",
  "Topics are: 'constants', 'functions', 'operators'",
  "Type 'verbose' to toggle the display of the parse tree.",
  "Type 'quit' or 'exit' to quit the program."]

/-- The help on defining and running a script. -/
def scriptMode : List String := [
  "Evaluates C-like script.",
  "The following commands are recognized:",
  "  - 'start'     Start defining the script. Type 'end' to finish the script",
  "                definition. The script will consist of everything you have",
  "                typed between 'start' and 'end'.",
  "  - 'script'    Print the previously defined script.",
  "  - 'variables' Print the list of variables in the previously defined script.",
  "  - 'run'       Run the previously defined script.",
  "  - 'help [topic]'   Print this help or help on a specific topic. Topics are:",
  "                     'constants', 'functions', 'operators' and 'script'.",
  "  - 'quit' or 'exit' Quit the program.",
  "Any other line is run as a one-line script on the script variables."]

/-- The help on a mode. -/
def ofMode : Mode → List String
  | .equation => equationMode
  | .script => scriptMode

/-- The help on a topic that a mode knows. The topic on scripts belongs to the script mode. -/
def ofTopic? (mode : Mode) (topic : String) : Option (List String) :=
  match topic with
  | "constants" => some constantTopic
  | "functions" => some functionTopic
  | "operators" => some operatorTopic
  | "script" => if mode = .script then some scriptTopic else none
  | _ => none

/-- The lines that answer a request for help. -/
def lines (mode : Mode) (topic : String) : List String := (ofTopic? mode topic).getD (ofMode mode)

end FormulaScript.Help
