import FormulaScript.Operator
import FormulaScript.Text.Location

/-! Expressions. Every node keeps the location of the token that it was made from. -/

namespace FormulaScript

/-- An expression. -/
inductive Expr
  | literal (value : Float) (location : Location)
  /-- A variable by name and slot. -/
  | slot (name : String) (index : Nat) (location : Location)
  /-- A text, which as a value is zero. -/
  | string (text : String) (location : Location)
  | unary (op : UnaryOp) (operand : Expr) (location : Location)
  | binary (op : BinaryOp) (left right : Expr) (location : Location)
  | print (arguments : List Expr) (location : Location)
  | assign (target value : Expr) (location : Location)
  /-- An assignment of the target's value combined with another. -/
  | update (op : Arithmetic) (target value : Expr) (location : Location)
  /-- An assignment of the target's value plus a constant. -/
  | increment (delta : Float) (target : Expr) (location : Location)
  | conditional (test yes no : Expr) (location : Location)

namespace Expr

/-- Where the expression's token stands. -/
def location : Expr → Location
  | literal _ l | slot _ _ l | string _ l | unary _ _ l | binary _ _ _ l | print _ l
  | assign _ _ l | update _ _ _ l | increment _ _ l | conditional _ _ _ l => l

/-- The kind of the expression. -/
def kind : Expr → String
  | literal .. => "constant"
  | slot .. => "variable"
  | string .. => "string"
  | unary .. => "unary"
  | binary .. => "binary"
  | print .. => "print"
  | assign .. => "assign"
  | update .. => "compound_assign"
  | increment .. => "increment"
  | conditional .. => "conditional"

/-- The operands of the expression, in order. -/
def children : Expr → List Expr
  | literal .. | slot .. | string .. => []
  | unary _ operand _ => [operand]
  | binary _ left right _ => [left, right]
  | print arguments _ => arguments
  | assign target value _ => [target, value]
  | update _ target value _ => [target, value]
  | increment _ target _ => [target]
  | conditional test yes no _ => [test, yes, no]

/-- What a node holds besides its operands. -/
inductive Content
  | nothing
  | number (value : Float)
  | text (value : String)

/-- The content of the expression's node. -/
def content : Expr → Content
  | literal value _ => .number value
  | slot name _ _ => .text name
  | string text _ => .text text
  | unary op _ _ => .text op.symbol
  | binary op _ _ _ => .text op.symbol
  | print .. | assign .. | conditional .. => .nothing
  | update op _ _ _ => .text op.symbol
  | increment delta _ _ => .number delta

/-- The slot of a variable. -/
def index? : Expr → Option Nat
  | slot _ index _ => some index
  | _ => none

/-- Whether the expression is a variable. -/
def isVariable : Expr → Bool
  | slot .. => true
  | _ => false

/-- Whether the expression may stand on the left of an assignment: a variable, or an assignment
whose last operand may. -/
def isAssignable : Expr → Bool
  | slot .. => true
  | assign _ value _ => value.isAssignable
  | update _ _ value _ => value.isAssignable
  | increment _ target _ => target.isAssignable
  | _ => false

mutual

/-- Whether two expressions are alike but for their locations. -/
def same : Expr → Expr → Bool
  | literal x _, literal y _ => x == y
  | slot name index _, slot name₂ index₂ _ => name == name₂ && index == index₂
  | string text _, string text₂ _ => text == text₂
  | unary op e _, unary op₂ e₂ _ => op.symbol == op₂.symbol && e.same e₂
  | binary op a b _, binary op₂ a₂ b₂ _ => op.symbol == op₂.symbol && a.same a₂ && b.same b₂
  | print es _, print es₂ _ => sameAll es es₂
  | assign a b _, assign a₂ b₂ _ => a.same a₂ && b.same b₂
  | update op a b _, update op₂ a₂ b₂ _ => op == op₂ && a.same a₂ && b.same b₂
  | increment delta e _, increment delta₂ e₂ _ => delta == delta₂ && e.same e₂
  | conditional a b c _, conditional a₂ b₂ c₂ _ => a.same a₂ && b.same b₂ && c.same c₂
  | _, _ => false

/-- Whether two lists of expressions are alike but for their locations. -/
def sameAll : List Expr → List Expr → Bool
  | [], [] => true
  | e :: es, e₂ :: es₂ => e.same e₂ && sameAll es es₂
  | _, _ => false

end

end Expr

end FormulaScript
