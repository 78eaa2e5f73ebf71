import FormulaScript.Evaluation
import FormulaScript.Expr.Parse

/-! A single expression with its variables: parsed once, evaluated as often as needed. -/

namespace FormulaScript

/-- An expression as it was last parsed. -/
structure Equation where
  text : String := ""
  expr : Option Expr := none
  vars : Variables := {}
  diagnostics : List Diagnostic := []

namespace Equation

/-- The number of variables that may be added for unknown names. -/
def autoAddCapacity : Nat := 50

/-- Parses a text over the given names, with all values zero. With `autoAdd` unknown names are
added, up to a limit. -/
def parse (text : String) (names : List String) (autoAdd : Bool) : Equation :=
  let capacity := if autoAdd then names.length + autoAddCapacity else names.length
  let parsed := Expr.parse text.toList (.ofNames names (some capacity)) autoAdd
  ⟨text, parsed.expr, parsed.vars, parsed.diagnostics⟩

/-- Whether the last parse has given an expression. -/
def isParsed (equation : Equation) : Bool := equation.expr.isSome

/-- The failure of the last parse, if it failed. -/
def failure? (equation : Equation) : Option ParseError :=
  if equation.isParsed then none else some ⟨equation.diagnostics⟩

/-- The last diagnostic as text, or no text. -/
def lastError (equation : Equation) : String := Diagnostic.lastText equation.diagnostics

/-- The diagnostics under a header. -/
def report (equation : Equation) : List String :=
  Diagnostic.report "Equation contains" equation.diagnostics

/-- The value of the expression on the equation's variables, or on the values that the caller gives,
as far as they reach. Without an expression it is zero, and nothing changes. -/
def evaluate (tolerance : Int) (given : Option (List Float)) (shared : Shared)
    (equation : Equation) : Run Float :=
  match equation.expr with
  | none => ⟨.ok 0.0, given, equation.vars, shared⟩
  | some e => (e.evaluate tolerance).runOn given equation.vars shared

end Equation

/-- Parses and evaluates a text once with variables of the given values. Of two values for one name
the later counts. -/
def evaluateExpression (text : String) (bindings : List (String × Float)) (shared : Shared) :
    Except ParseError (Run Float) :=
  let equation := Equation.parse text (Variables.ofNames (bindings.map (·.1))).names false
  match equation.failure? with
  | some failure => .error failure
  | none =>
    let values := equation.vars.names.map fun name =>
      (bindings.reverse.lookup name).getD 0.0
    .ok (equation.evaluate Number.defaultTolerance (some values) shared)

end FormulaScript
