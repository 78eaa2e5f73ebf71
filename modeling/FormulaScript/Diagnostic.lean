import FormulaScript.Text.Quoted

/-! Diagnostics: what may be wrong with an expression or a script, and where. A `Problem` is the
cause; its category, code and message are functions of it. -/

namespace FormulaScript

/-- The construct that a semicolon is missing in front of. -/
inductive Follower
  | ifKeyword
  | whileKeyword
  | closingBrace
deriving DecidableEq, Repr

/-- The construct as it is written. -/
def Follower.text : Follower → String
  | .ifKeyword => "if"
  | .whileKeyword => "while"
  | .closingBrace => "\x7d"

/-- A cause of rejection of an expression or a script. -/
inductive Problem
  /-- A number literal with no value. -/
  | invalidNumber (text : String)
  /-- A string that runs to the end of the text. -/
  | unbalancedQuotes
  /-- A text with no token. -/
  | noExpression
  /-- A token after a whole expression. -/
  | trailingToken (text : String)
  /-- A parenthesis that is not closed, or closed and not open. -/
  | unbalancedParentheses
  /-- A pair of parentheses with nothing between. -/
  | emptyParentheses
  /-- A token that starts no operand. -/
  | unexpectedToken (text : String)
  /-- An operand that is lacking at the end of the text. -/
  | unexpectedEnd
  /-- A string that is no argument of `print`. -/
  | stringOutsidePrint
  /-- A call of a function that does not exist. -/
  | unknownFunction (name : String)
  /-- A name that the variables do not hold. -/
  | unknownVariable (name : String)
  /-- A new name for which there is no room. -/
  | capacityExceeded (name : String)
  /-- An assignment whose left operand cannot be assigned to. -/
  | assignmentTarget (operator : String)
  /-- An increment or decrement of something other than a variable. -/
  | incrementTarget (operator : String)
  /-- A call with too few arguments. -/
  | wrongArgumentCount (function : String) (arity : Nat)
  /-- A statement that runs into a control block or the end of its block. -/
  | missingSemicolon (follower : Follower)
  /-- A keyword that no condition follows. -/
  | missingParenthesis (keyword : String)
  /-- An `else` without a block. -/
  | missingBraceAfterElse
  /-- A condition without a block. -/
  | missingBraceAfterCondition
  /-- Text between a condition and its block. -/
  | textAfterCondition (text : String)
  /-- A pair of parentheses with no condition between. -/
  | emptyCondition
  /-- A closing brace with no block open. -/
  | unmatchedBrace
  /-- A statement that runs into the end of the script. -/
  | unexpectedEndOfScript
  /-- A condition that runs into the end of the script or block. -/
  | unbalancedCondition
  /-- A block that runs into the end of the script or block. -/
  | unbalancedBraces
  /-- A statement whose expression has problems of its own. -/
  | invalidExpression (text : String)
  /-- A problem that a caller describes in its own words. -/
  | other (category code message : String)
deriving DecidableEq, Repr

namespace Problem

/-- The stage that finds the problem. -/
def category : Problem → String
  | invalidNumber _ | unbalancedQuotes => "LexError"
  | noExpression | trailingToken _ | unbalancedParentheses | emptyParentheses
  | unexpectedToken _ | unexpectedEnd | stringOutsidePrint | unknownFunction _
  | unknownVariable _ | capacityExceeded _ | assignmentTarget _ | incrementTarget _
  | wrongArgumentCount _ _ => "SyntaxError"
  | missingSemicolon _ | missingParenthesis _ | missingBraceAfterElse
  | missingBraceAfterCondition | textAfterCondition _ | emptyCondition | unmatchedBrace
  | unexpectedEndOfScript | unbalancedCondition | unbalancedBraces
  | invalidExpression _ => "ScriptStructureError"
  | other category _ _ => category

/-- The stable code of the problem. -/
def code : Problem → String
  | invalidNumber _ => "INVALID_NUMBER"
  | unbalancedQuotes => "UNBALANCED_QUOTES"
  | noExpression => "NO_EXPRESSION"
  | trailingToken _ => "SYNTAX_ERROR_NEAR"
  | unbalancedParentheses => "UNBALANCED_PARENTHESES"
  | emptyParentheses => "EMPTY_PARENTHESES"
  | unexpectedToken _ => "UNEXPECTED_TOKEN"
  | unexpectedEnd => "UNEXPECTED_END"
  | stringOutsidePrint => "STRING_OUTSIDE_PRINT"
  | unknownFunction _ => "UNKNOWN_FUNCTION"
  | unknownVariable _ => "UNKNOWN_VARIABLE"
  | capacityExceeded _ => "CAPACITY_EXCEEDED"
  | assignmentTarget _ | incrementTarget _ => "NON_ASSIGNABLE"
  | wrongArgumentCount _ _ => "WRONG_ARGUMENT_COUNT"
  | missingSemicolon _ => "MISSING_SEMICOLON"
  | missingParenthesis _ => "MISSING_PARENTHESIS"
  | missingBraceAfterElse | missingBraceAfterCondition | textAfterCondition _ => "MISSING_BRACE"
  | emptyCondition => "EMPTY_CONDITION"
  | unmatchedBrace => "UNMATCHED_BRACE"
  | unexpectedEndOfScript | unbalancedCondition | unbalancedBraces => "UNEXPECTED_END_OF_SCRIPT"
  | invalidExpression _ => "INVALID_EXPRESSION"
  | other _ code _ => code

/-- The description of the problem. -/
def message : Problem → String
  | invalidNumber text => s!"Invalid number: {text}"
  | unbalancedQuotes => "Unbalanced quotes"
  | noExpression => "No expression Present"
  | trailingToken text => s!"Syntax error near {text}"
  | unbalancedParentheses => "Unbalanced Parentheses"
  | emptyParentheses => "Empty Parentheses"
  | unexpectedToken text => s!"Unexpected token: {text}"
  | unexpectedEnd => "Unexpected end of equation"
  | stringOutsidePrint => "Strings are only supported in print() functions"
  | unknownFunction name => s!"Unknown function: {name}()"
  | unknownVariable name => s!"Unknown variable: {name}"
  | capacityExceeded name =>
    s!"Detected variable {name} but maximum number of unknown variables has been reached"
  | assignmentTarget operator => s!"Non assignable statement on left of {operator} operator."
  | incrementTarget operator => s!"Non assignable statement on right of {operator} operator."
  | wrongArgumentCount function arity => s!"Function {function}() expects {arity} argument(s)"
  | missingSemicolon follower => s!"missing ';' before '{follower.text}'."
  | missingParenthesis keyword => s!"'(' expected after '{keyword}'."
  | missingBraceAfterElse => "'\x7b' expected after 'else'."
  | missingBraceAfterCondition => "'\x7b' expected after conditional expression."
  | textAfterCondition text => s!"\x7b expected after conditional expression but '{text}' found."
  | emptyCondition => "empty conditional expression."
  | unmatchedBrace => "unexpected '\x7d'."
  | unexpectedEndOfScript => "unexpected end of script."
  | unbalancedCondition => "unexpected end of script (unbalanced parenthesis)."
  | unbalancedBraces => "unexpected end of script (unbalanced '\x7b' and '\x7d')."
  | invalidExpression text => s!"invalid expression '{text}'."
  | other _ _ message => message

end Problem

/-- A problem with the line of the script and the position in the expression where it was met. -/
structure Diagnostic where
  problem : Problem
  line : Option Nat := none
  position : Option Nat := none
deriving DecidableEq, Repr

namespace Diagnostic

/-- The diagnostic with a line, unless it has one already. -/
def atLine (line : Nat) (diagnostic : Diagnostic) : Diagnostic :=
  { diagnostic with line := diagnostic.line.or (some line) }

/-- The message, after the line if there is one. -/
def text (diagnostic : Diagnostic) : String :=
  match diagnostic.line with
  | some line => s!"line {line}: {diagnostic.problem.message}"
  | none => diagnostic.problem.message

/-- Whether two diagnostics say the same of the same line. The position does not count. -/
def same (a b : Diagnostic) : Bool :=
  a.problem.category == b.problem.category && a.problem.code == b.problem.code &&
    a.problem.message == b.problem.message && a.line == b.line

/-- The diagnostic with its parts named. -/
def inspect (diagnostic : Diagnostic) : String :=
  let line := diagnostic.line.elim "None" toString
  let problem := diagnostic.problem
  s!"Diagnostic({problem.category}, {problem.code}, {Text.quoted problem.message}, line={line})"

/-- The diagnostics as lines numbered from 1. -/
def render (diagnostics : List Diagnostic) : List String :=
  diagnostics.mapIdx fun index diagnostic => s!"  {index + 1}: {diagnostic.text}"

/-- The last diagnostic as text, or no text. -/
def lastText (diagnostics : List Diagnostic) : String :=
  diagnostics.getLast?.elim "" text

/-- A header that counts the diagnostics, and the numbered lines; nothing if there are none. -/
def report (title : String) (diagnostics : List Diagnostic) : List String :=
  if diagnostics.isEmpty then []
  else s!"{title} {diagnostics.length} error(s):" :: render diagnostics

end Diagnostic

/-- The failure of a parse that has to succeed. -/
structure ParseError where
  diagnostics : List Diagnostic

/-- The last of the diagnostics. -/
def ParseError.message (failure : ParseError) : String := Diagnostic.lastText failure.diagnostics

end FormulaScript
