import FormulaScript.Expr
import FormulaScript.Expr.Reader
import FormulaScript.Token.Scan

/-! The grammar of expressions. From the loosest to the tightest, its levels are: assignments; the
binary operators of `binaryLevels`; the signs `+`, `-`, `++` and `--` in front of an operand;
parentheses; numbers, names and calls. The operators of every binary level group to the left, and so
do assignments.

A reading step yields no expression when a part of it has failed without stopping the reading. The
expressions inside parentheses and arguments are read by the same grammar again; `expression` takes
a bound on the depth of this nesting, which the number of tokens always is. -/

namespace FormulaScript

namespace Expr

open Read

/-- The binary operators by level, loosest first. -/
def binaryLevels : List (List (String × BinaryOp)) :=
  [[("||", .either)],
   [("&&", .both)],
   [("==", .comparison .equal), ("!=", .comparison .notEqual)],
   [("<", .comparison .less), ("<=", .comparison .atMost),
    (">", .comparison .greater), (">=", .comparison .atLeast)],
   [("+", .arithmetic .add), ("-", .arithmetic .sub)],
   [("*", .arithmetic .mul), ("/", .arithmetic .div), ("%", .arithmetic .mod)],
   [("^", .arithmetic .caret)]]

/-- The assignment operators, each with the operation that combines the old value with the new. -/
def assignments : List (String × Option Arithmetic) :=
  [("=", none), ("+=", some .add), ("-=", some .sub), ("*=", some .mul), ("/=", some .div)]

/-- The signs that stand in front of an operand. -/
def signs : List String := ["++", "--", "+", "-"]

/-- The entry of a table of operators for a token. -/
def operator? (table : List (String × α)) (token : Token) : Option α :=
  (table.find? fun entry => token.isDelimiter entry.1).map (·.2)

/-- Reads the operators of one level and their right operands, as long as there are any, and joins
each to what stands on its left. `check` looks at an operator and its left operand before the right
one is read. Every operator is a token, so the number of tokens bounds the number of rounds. -/
def chain (table : List (String × α)) (check : Token → Option Expr → Read Unit)
    (join : α → Location → Expr → Expr → Expr) (operand : Read (Option Expr)) :
    Nat → Option Expr → Read (Option Expr)
  | 0, left => return left
  | rounds + 1, left => do
    match operator? table (← peek) with
    | none => return left
    | some op =>
      let token ← take
      check token left
      let right ← operand
      chain table check join operand rounds (join op token.location <$> left <*> right)

/-- Reads one level of operators that group to the left. -/
def level (table : List (String × α)) (check : Token → Option Expr → Read Unit)
    (join : α → Location → Expr → Expr → Expr) (operand : Read (Option Expr)) :
    Read (Option Expr) := do
  let left ← operand
  chain table check join operand (← get).rest.length left

/-- Reads the binary operators of some levels around operands. -/
def operations (operand : Read (Option Expr)) : List (List (String × BinaryOp)) → Read (Option Expr)
  | [] => operand
  | table :: tighter =>
    level table (fun _ _ => pure ()) (fun op location left right => .binary op left right location)
      (operations operand tighter)

/-- The left operand of an assignment has to be assignable. -/
def checkTarget (token : Token) (left : Option Expr) : Read Unit :=
  if left.any (!·.isAssignable) then fail (.assignmentTarget token.text) token else pure ()

/-- The expression of an assignment operator. -/
def joinAssignment (op : Option Arithmetic) (location : Location) (target value : Expr) : Expr :=
  match op with
  | none => .assign target value location
  | some op => .update op target value location

/-- Applies a sign to its operand. An increment or a decrement needs a variable. -/
def applySign (sign : Token) (operand : Option Expr) : Read (Option Expr) :=
  match operand with
  | none => pure none
  | some e =>
    if sign.text = "+" then pure (some e)
    else if sign.text = "-" then pure (some (.unary (.function .negate) e sign.location))
    else if e.isVariable then
      pure (some (.increment (if sign.text = "++" then 1.0 else -1.0) e sign.location))
    else fail (.incrementTarget sign.text) sign

/-- Applies signs to an operand, the last one first. -/
def applySigns : List Token → Option Expr → Read (Option Expr)
  | [], operand => pure operand
  | sign :: inner, operand => do applySign sign (← applySigns inner operand)

/-- Reads the signs in front of an operand. -/
def takeSigns : Read (List Token) := do
  let run := (← get).rest.takeWhile fun token => signs.any token.isDelimiter
  modify fun reader => { reader with
    rest := reader.rest.drop run.length, position := reader.position + run.length }
  return run

/-- Reads an operand with the signs in front of it. -/
def signed (operand : Read (Option Expr)) : Read (Option Expr) := do
  let run ← takeSigns
  applySigns run (← operand)

/-- The expression of a name: a constant or a variable. -/
def resolve (token : Token) : Read (Option Expr) := do
  let name := token.text
  if let some value := constants.lookup name then return some (.literal value token.location)
  let reader ← get
  match reader.vars.indexOf? name with
  | some index => return some (.slot name index token.location)
  | none =>
    if reader.autoAdd then
      let (index?, vars) := reader.vars.add name
      set { reader with vars }
      match index? with
      | some index => return some (.slot name index token.location)
      | none =>
        report (.capacityExceeded name) token
        return none
    else
      report (.unknownVariable name) token
      return none

/-- Reads the arguments of a call up to the closing parenthesis, `missing` of them at most. There
has to be an argument after the opening parenthesis and after every comma. -/
def arguments (expression : Read (Option Expr)) (tooFew : Problem) :
    Nat → Read (List (Option Expr))
  | 0 => return []
  | missing + 1 => do
    if ← sees ")" then failHere tooFew
    let argument ← expression
    if missing = 0 then return [argument]
    if ← accept "," then return argument :: (← arguments expression tooFew missing)
    return [argument]

/-- The expression of a call with the right number of arguments. -/
def ofCall (function : Builtin) (arguments : List Expr) (location : Location) : Option Expr :=
  match function, arguments with
  | .unary op, [operand] => some (.unary op operand location)
  | .binary op, [left, right] => some (.binary op left right location)
  | .conditional, [test, yes, no] => some (.conditional test yes no location)
  | _, _ => none

/-- Reads the arguments of `print`, each a string or an expression. Every argument but the first
follows a comma, so the number of tokens bounds the number of rounds. -/
def printArguments (expression : Read (Option Expr)) : Nat → Read (List (Option Expr))
  | 0 => failHere .unexpectedEnd
  | rounds + 1 => do
    let token ← peek
    let argument ←
      match token.kind with
      | .string =>
        modify Reader.skip
        pure (some (.string token.text token.location))
      | _ => expression
    if ← accept "," then return argument :: (← printArguments expression rounds)
    return [argument]

/-- Reads a call. The token after the name is taken for the opening parenthesis. -/
def call (expression : Read (Option Expr)) : Read (Option Expr) := do
  let token ← take
  if token.text = "print" then
    modify Reader.skip
    let arguments ← printArguments expression ((← get).rest.length + 1)
    close
    return (arguments.mapM id).map (.print · token.location)
  match Builtin.ofName? token.text with
  | none => fail (.unknownFunction token.text) token
  | some function =>
    modify Reader.skip
    let tooFew := .wrongArgumentCount token.text function.arity
    let arguments ← arguments expression tooFew function.arity
    if arguments.length < function.arity then
      if ← sees ")" then failHere tooFew
    close
    return (arguments.mapM id).bind (ofCall function · token.location)

/-- What is wrong with a token that starts no operand. -/
def unexpected (token : Token) : Problem :=
  match token.kind with
  | .finish => .unexpectedEnd
  | .string => .stringOutsidePrint
  | _ => .unexpectedToken token.text

/-- Reads a number, a name or a call. -/
def primary (expression : Read (Option Expr)) : Read (Option Expr) := do
  let token ← peek
  match token.kind with
  | .number value? =>
    modify Reader.skip
    return value?.map (.literal · token.location)
  | .name =>
    modify Reader.skip
    resolve token
  | .function => call expression
  | _ => fail (unexpected token) token

/-- Reads an expression in parentheses, or one without. -/
def parenthesized (expression : Read (Option Expr)) : Read (Option Expr) := do
  if ← accept "(" then
    if ← sees ")" then failHere .emptyParentheses
    let inner ← expression
    close
    return inner
  else primary expression

/-- Reads assignments around operands. -/
def assignment (operand : Read (Option Expr)) : Read (Option Expr) :=
  level assignments checkTarget joinAssignment operand

/-- Reads an expression whose nested expressions are at most `depth - 1` deep. -/
def expression : Nat → Read (Option Expr)
  | 0 => failHere .unexpectedEnd
  | depth + 1 => assignment (operations (signed (parenthesized (expression depth))) binaryLevels)

/-- Reads an expression up to the end of the tokens. -/
def whole : Read (Option Expr) := do
  let e ← expression ((← get).rest.length + 1)
  let token ← peek
  if token.isFinish then return e
  if token.isDelimiter ")" then fail .unbalancedParentheses token
  fail (.trailingToken token.text) token

/-- Reads a list of tokens as an expression. There is none if the reading has stopped or a part
has failed. -/
def ofTokens (tokens : List Token) (vars : Variables) (autoAdd : Bool) :
    Option Expr × Reader :=
  let reader : Reader := { rest := tokens, vars, autoAdd }
  if reader.next.isFinish then (none, reader.report .noExpression reader.next)
  else
    match whole.run reader with
    | .ok e reader => (e, reader)
    | .error _ reader => (none, reader)

/-- What the text of an expression gave: the expression if nothing is wrong with it, what is wrong,
and the variables, to which new names may have been added. -/
structure Parsed where
  expr : Option Expr
  diagnostics : List Diagnostic
  vars : Variables

/-- Parses the text of an expression. -/
def parse (text : List Char) (vars : Variables) (autoAdd : Bool) : Parsed :=
  let (tokens, problems) := Token.scan text
  let (expr, reader) := ofTokens tokens vars autoAdd
  let diagnostics := problems ++ reader.diagnostics
  ⟨if diagnostics.isEmpty then expr else none, diagnostics, reader.vars⟩

end Expr

end FormulaScript
