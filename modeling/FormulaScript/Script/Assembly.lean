import FormulaScript.Expr.Parse
import FormulaScript.Program
import FormulaScript.Script.Draft

/-! Parsing the expressions of a draft, in the order of the script and over one set of variables.
Each expression is parsed whatever is wrong with the others; a program comes out only if nothing is
wrong anywhere. -/

namespace FormulaScript.Script

/-- What a draft gave: the program if nothing is wrong with it, what is wrong, and the variables, to
which new names may have been added. -/
structure Assembled where
  program : Option Program
  diagnostics : List Diagnostic
  vars : Variables

/-- The expression that yields 1 if a condition holds and 0 otherwise. -/
def testText (condition : List Char) : List Char :=
  "if(".toList ++ condition ++ ", 1., 0.)".toList

/-- Parses the text of a statement that is reported on a line. What is wrong with it is preceded by
the text as a whole. -/
def parseEquation (text : List Char) (line : Nat) (vars : Variables) (autoAdd : Bool) :
    Expr.Parsed :=
  let parsed := Expr.parse text vars autoAdd
  let problems := parsed.diagnostics.map (·.atLine line)
  { parsed with
    diagnostics :=
      if problems.isEmpty then []
      else fault (.invalidExpression (String.ofList text)) line :: problems }

/-- Parses a condition that is reported on a line. -/
def parseTest (condition : List Char) (line : Nat) (vars : Variables) (autoAdd : Bool) :
    Expr.Parsed :=
  let parsed := Expr.parse (testText condition) vars autoAdd
  { parsed with diagnostics := parsed.diagnostics.map (·.atLine line) }

/-- Parses the expressions of a draft. -/
def Draft.assemble (autoAdd : Bool) : Draft → Variables → Assembled
  | .done, vars => ⟨some .nil, [], vars⟩
  | .broken fault, vars => ⟨none, [fault], vars⟩
  | .equation text line rest, vars =>
    let e := parseEquation text line vars autoAdd
    let after := rest.assemble autoAdd e.vars
    ⟨do return .equation (← e.expr) line (← after.program),
      e.diagnostics ++ after.diagnostics, after.vars⟩
  | .branch condition line yes no rest, vars =>
    let test := parseTest condition line vars autoAdd
    let yes := yes.assemble autoAdd test.vars
    let no := no.assemble autoAdd yes.vars
    let after := rest.assemble autoAdd no.vars
    ⟨do return .branch (← test.expr) (← yes.program) (← no.program) line (← after.program),
      test.diagnostics ++ yes.diagnostics ++ no.diagnostics ++ after.diagnostics,
      after.vars⟩
  | .loop condition line body rest, vars =>
    let test := parseTest condition line vars autoAdd
    let body := body.assemble autoAdd test.vars
    let after := rest.assemble autoAdd body.vars
    ⟨do return .loop (← test.expr) (← body.program) line (← after.program),
      test.diagnostics ++ body.diagnostics ++ after.diagnostics, after.vars⟩

/-- Parses a script. -/
def assemble (script : List Char) (vars : Variables) (autoAdd : Bool) : Assembled :=
  (Draft.ofScript script).assemble autoAdd vars

end FormulaScript.Script
