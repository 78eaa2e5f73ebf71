import FormulaScript.Expr
import FormulaScript.Number.Shortest
import FormulaScript.Text.Quoted

/-! Two ways to show an expression: as an indented outline with a line for each node, and as one
line that names the parts of each node. -/

namespace FormulaScript

/-- The blanks in front of a line at a depth; none at a depth below zero. -/
def indentation (depth : Int) : String := String.ofList (List.replicate (2 * depth).toNat ' ')

namespace Expr

/-- The caption of a node. -/
def label : Expr → String
  | literal value _ => s!"Constant {Number.format value}"
  | slot name index _ => s!"Variable {name} [{index}]"
  | string text _ => s!"String \"{text}\""
  | unary op _ _ => s!"Unary {op.symbol}"
  | binary op _ _ _ => s!"Binary {op.symbol}"
  | print .. => "Print"
  | assign .. => "Assign"
  | update op _ _ _ => s!"CompoundAssign {op.symbol}="
  | increment delta _ _ => if delta > 0.0 then "Increment ++" else "Increment --"
  | conditional .. => "Conditional"

mutual

/-- The lines of an outline at a depth. The operands of a conditional have headings. -/
def outline (depth : Int) (e : Expr) : List String :=
  (indentation depth ++ e.label) ::
    match e with
    | literal .. | slot .. | string .. => []
    | unary _ operand _ => operand.outline (depth + 1)
    | binary _ left right _ => left.outline (depth + 1) ++ right.outline (depth + 1)
    | print arguments _ => outlineAll (depth + 1) arguments
    | assign target value _ => target.outline (depth + 1) ++ value.outline (depth + 1)
    | update _ target value _ => target.outline (depth + 1) ++ value.outline (depth + 1)
    | increment _ target _ => target.outline (depth + 1)
    | conditional test yes no _ =>
      (indentation (depth + 1) ++ "condition:") :: test.outline (depth + 2) ++
        (indentation (depth + 1) ++ "then:") :: yes.outline (depth + 2) ++
        (indentation (depth + 1) ++ "else:") :: no.outline (depth + 2)

/-- The lines of the outlines of several expressions. -/
def outlineAll (depth : Int) : List Expr → List String
  | [] => []
  | e :: es => e.outline depth ++ outlineAll depth es

end

/-- The outline of an expression as text. -/
def describe (depth : Int) (e : Expr) : String := "\n".intercalate (e.outline depth)

/-- The part of a node that shows its content. -/
def Content.inspect : Content → List String
  | nothing => []
  | number value => [s!"value={Number.shortest value}"]
  | text value => [s!"value={Text.quoted value}"]

/-- A node from its kind, its content, its slot and its operands, of which it shows those that
are there. -/
def inspectNode (e : Expr) (operands : List String) : String :=
  let index := e.index?.toList.map fun index => s!"index={index}"
  let inner := ", ".intercalate operands
  let parts := e.kind :: e.content.inspect ++ index ++
    if operands.isEmpty then [] else [s!"children=[{inner}]"]
  "ASTNode(" ++ ", ".intercalate parts ++ ")"

mutual

/-- The expression with its parts named. -/
def inspect (e : Expr) : String :=
  inspectNode e <|
    match e with
    | literal .. | slot .. | string .. => []
    | unary _ operand _ => [operand.inspect]
    | binary _ left right _ => [left.inspect, right.inspect]
    | print arguments _ => inspectAll arguments
    | assign target value _ => [target.inspect, value.inspect]
    | update _ target value _ => [target.inspect, value.inspect]
    | increment _ target _ => [target.inspect]
    | conditional test yes no _ => [test.inspect, yes.inspect, no.inspect]

/-- Several expressions with their parts named. -/
def inspectAll : List Expr → List String
  | [] => []
  | e :: es => e.inspect :: inspectAll es

end

end Expr

end FormulaScript
