import FormulaScript.Evaluation
import FormulaScript.Expr.Outline

/-! Programs: sequences of statements. A condition is an expression that yields 1 or 0, made from
the condition that stands in the script. -/

namespace FormulaScript

/-- A sequence of statements: its first statement, on a line, and the rest. -/
inductive Program
  | nil
  | equation (expr : Expr) (line : Nat) (rest : Program)
  /-- An `if`. One that follows an `else` is the only statement of its block. -/
  | branch (test : Expr) (yes no : Program) (line : Nat) (rest : Program)
  /-- A `while`. -/
  | loop (test : Expr) (body : Program) (line : Nat) (rest : Program)

/-- A statement by its parts. -/
structure Statement where
  kind : String
  line : Nat
  expr : Expr
  children : Program
  otherwise : Program

namespace Program

/-- The statements of a program, in order. -/
def statements : Program → List Statement
  | nil => []
  | equation e line rest => ⟨"equation", line, e, nil, nil⟩ :: rest.statements
  | branch test yes no line rest => ⟨"if", line, test, yes, no⟩ :: rest.statements
  | loop test body line rest => ⟨"while", line, test, body, nil⟩ :: rest.statements

/-- One program after another. -/
def append : Program → Program → Program
  | nil, q => q
  | equation e line rest, q => equation e line (rest.append q)
  | branch test yes no line rest, q => branch test yes no line (rest.append q)
  | loop test body line rest, q => loop test body line (rest.append q)

instance : Append Program := ⟨append⟩

/-- Whether two programs are alike but for their lines and locations. -/
def same : Program → Program → Bool
  | nil, nil => true
  | equation e _ rest, equation e₂ _ rest₂ => e.same e₂ && rest.same rest₂
  | branch test yes no _ rest, branch test₂ yes₂ no₂ _ rest₂ =>
    test.same test₂ && yes.same yes₂ && no.same no₂ && rest.same rest₂
  | loop test body _ rest, loop test₂ body₂ _ rest₂ =>
    test.same test₂ && body.same body₂ && rest.same rest₂
  | _, _ => false

/-- The lines that show a condition as it stands in the script. -/
def outlineTest (depth : Int) (test : Expr) : List String :=
  (indentation (depth + 1) ++ "Condition") ::
    test.children.head?.elim [] (·.outline (depth + 2))

/-- The lines of an outline at a depth. -/
def outline (depth : Int) : Program → List String
  | nil => []
  | equation e _ rest => e.outline depth ++ rest.outline depth
  | branch test yes no _ rest =>
    let otherwise := no.outline (depth + 2)
    (indentation depth ++ "If") :: outlineTest depth test ++
      (indentation (depth + 1) ++ "Then") :: yes.outline (depth + 2) ++
      (if no.statements.isEmpty then [] else (indentation (depth + 1) ++ "Else") :: otherwise) ++
      rest.outline depth
  | loop test body _ rest =>
    (indentation depth ++ "While loop") :: outlineTest depth test ++
      (indentation (depth + 1) ++ "Body") :: body.outline (depth + 2) ++ rest.outline depth

/-- The outline of a program as text. -/
def describe (program : Program) : String := "\n".intercalate ("Script" :: program.outline 1)

end Program

/-- The statement in one line, with the numbers of statements in its blocks. -/
def Statement.inspect (statement : Statement) : String :=
  let count (name : String) (block : Program) : List String :=
    let size := block.statements.length
    if size = 0 then [] else [s!"{name}={size}"]
  let line := statement.line
  let parts := statement.kind :: s!"line={line}" :: count "children" statement.children ++
    count "else_children" statement.otherwise
  "Statement(" ++ ", ".intercalate parts ++ ")"

namespace Program

/-- Whether a condition holds. -/
def holds (tolerance : Int) (test : Expr) : Evaluation Bool := do
  return Number.isTrue tolerance (← test.evaluate tolerance)

/-- Runs a body as long as a test holds, which is asked before every round. A loop that reaches its
limit fails. -/
def repeatWhile (test : Evaluation Bool) (body : Evaluation Unit) : Nat → Evaluation Unit
  | 0 => throw .tooManyRounds
  | rounds + 1 => do
    if ← test then
      body
      repeatWhile test body rounds

/-- Runs the statements of a program in order. -/
def run (settings : Settings) : Program → Evaluation Unit
  | nil => pure ()
  | equation e _ rest => do
    let _ ← e.evaluate settings.tolerance
    rest.run settings
  | branch test yes no _ rest => do
    if ← holds settings.tolerance test then yes.run settings else no.run settings
    rest.run settings
  | loop test body _ rest => do
    repeatWhile (holds settings.tolerance test) (body.run settings) settings.roundLimit
    rest.run settings

end Program

end FormulaScript
