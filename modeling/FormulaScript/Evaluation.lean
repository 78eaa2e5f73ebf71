import FormulaScript.Expr
import FormulaScript.Text.Quoted
import FormulaScript.Variables

/-! Evaluation of expressions. It reads and writes the values of the variables, draws random
numbers and prints. Arithmetic never fails: infinities and NaNs are values. What has happened before
a failure stays. -/

namespace FormulaScript

/-- How programs are run: the tolerance of comparisons, and the number of rounds that a loop may
take each time it is entered. -/
structure Settings where
  tolerance : Int := Number.defaultTolerance
  roundLimit : Nat := Nat.pow 10 18

/-- What the evaluations of one session share: the source of random numbers and the text printed
so far. -/
structure Shared where
  random : Random
  output : String := ""

/-- What an evaluation works on: the values of the variables in slot order, and what it shares
with others. -/
structure Context extends Shared where
  values : List Float

/-- Why an evaluation fails. -/
inductive EvaluationError
  /-- An assignment to an expression of a kind that has no variable to assign to. -/
  | notAssignable (kind : String)
  /-- An operator symbol without meaning. -/
  | unknownOperator (symbol : String)
  /-- A slot that the variables do not have. -/
  | noSuchSlot (index : Nat)
  /-- A loop that does not end within the allowed number of rounds. -/
  | tooManyRounds
deriving DecidableEq, Repr

/-- The description of a failure. -/
def EvaluationError.message : EvaluationError → String
  | notAssignable kind => s!"cannot assign to a {kind} node"
  | unknownOperator symbol => "unknown binary operator " ++ Text.quoted symbol
  | noSuchSlot index => s!"no slot {index}"
  | tooManyRounds => "a loop takes too many rounds"

/-- An action on a context that may fail. -/
abbrev Evaluation := EStateM EvaluationError Context

namespace Evaluation

/-- Prints a text. -/
def write (text : String) : Evaluation Unit :=
  modify fun context => { context with output := context.output ++ text }

/-- The value in a slot. -/
def read (index : Nat) : Evaluation Float := do
  match (← get).values[index]? with
  | some value => return value
  | none => throw (.noSuchSlot index)

/-- Puts a value into a slot. -/
def store (index : Nat) (value : Float) : Evaluation Float := do
  let context ← get
  if index < context.values.length then
    set { context with values := context.values.set index value }
    return value
  else throw (.noSuchSlot index)

/-- A random draw. -/
def draw (source : Random → Float × Random) : Evaluation Float :=
  modifyGet fun context =>
    let (value, random) := source context.random
    (value, { context with random })

/-- Reseeds the random source with a value and gives the seed. -/
def reseed (value : Float) : Evaluation Float := do
  let seed := Random.seedOfValue value
  modify fun context => { context with random := context.random.reseed seed }
  return Number.nearest seed.toNat 1

end Evaluation

/-- The value of an operation on two values. -/
def BinaryOp.apply (tolerance : Int) (op : BinaryOp) (a b : Float) : Evaluation Float :=
  match op with
  | arithmetic op => return op.apply a b
  | comparison op => return Number.ofBool (op.holds tolerance a b)
  | both => return Number.ofBool (Number.isTrue tolerance a && Number.isTrue tolerance b)
  | either => return Number.ofBool (Number.isTrue tolerance a || Number.isTrue tolerance b)
  | urand => return a + (← Evaluation.draw Random.uniform) * (b - a)
  | nrand => return a + b * (← Evaluation.draw Random.normal)
  | unknown symbol => throw (.unknownOperator symbol)

namespace Expr

open Evaluation

/-- Puts a value into the variables that an expression assigns to: the variable itself, or those
on both sides of an assignment, the right ones first. -/
def assignValue : Expr → Float → Evaluation Float
  | slot _ index _, value => store index value
  | assign target source _, value => do target.assignValue (← source.assignValue value)
  | update _ target source _, value => do target.assignValue (← source.assignValue value)
  | increment _ target _, value => target.assignValue value
  | e, _ => throw (.notAssignable e.kind)

mutual

/-- The value of an expression. Comparisons and truth hold up to a tolerance. `print` of a lone
variable shows its name too. -/
def evaluate (tolerance : Int) : Expr → Evaluation Float
  | literal value _ => return value
  | slot _ index _ => read index
  | string .. => return 0.0
  | unary op operand _ => do
    let value ← operand.evaluate tolerance
    match op with
    | .function f => return f.apply value
    | .rands => reseed value
  | binary op left right _ => do
    let a ← left.evaluate tolerance
    let b ← right.evaluate tolerance
    op.apply tolerance a b
  | print [slot name index _] _ => do
    let value ← read index
    write (valueLine name value ++ "\n")
    return value
  | print arguments _ => do
    let (shown, value) ← evaluateAll tolerance arguments 0.0
    write (" ".intercalate shown ++ "\n")
    return value
  | assign target source _ => do
    let value ← source.evaluate tolerance
    target.assignValue value
  | update op target source _ => do
    let old ← target.evaluate tolerance
    let value ← source.evaluate tolerance
    target.assignValue (op.apply old value)
  | increment delta target _ => do
    let old ← target.evaluate tolerance
    target.assignValue (old + delta)
  | conditional test yes no _ => do
    let value ← test.evaluate tolerance
    if Number.isTrue tolerance value then yes.evaluate tolerance else no.evaluate tolerance

/-- What `print` shows of its arguments, and the value of the last one that is no string, or else
the given one. -/
def evaluateAll (tolerance : Int) : List Expr → Float → Evaluation (List String × Float)
  | [], last => return ([], last)
  | string text _ :: rest, last => do
    let (shown, value) ← evaluateAll tolerance rest last
    return (text :: shown, value)
  | e :: rest, _ => do
    let value ← e.evaluate tolerance
    let (shown, last) ← evaluateAll tolerance rest value
    return (Number.format value :: shown, last)

end

end Expr

/-- The first values of a list replaced by those of another, as far as both reach. -/
def overwrite (target source : List Float) : List Float :=
  source.take target.length ++ target.drop source.length

/-- What a run left: its result, the values that the caller gave, the variables and what the
session shares. -/
structure Run (α : Type) where
  result : Except EvaluationError α
  given : Option (List Float)
  vars : Variables
  shared : Shared

/-- Runs an action on the values of variables. Values that the caller gives are copied into the
slots first, and receive the values of the slots after a run that has not failed. -/
def Evaluation.runOn (action : Evaluation α) (given : Option (List Float)) (vars : Variables)
    (shared : Shared) : Run α :=
  let values := given.elim vars.values (overwrite vars.values)
  match action.run { shared with values } with
  | .ok result context =>
    ⟨.ok result, given.map (overwrite · context.values),
      { vars with values := context.values }, context.toShared⟩
  | .error failure context =>
    ⟨.error failure, given, { vars with values := context.values }, context.toShared⟩

end FormulaScript
