import FormulaScript.Console.Activity
import FormulaScript.Console.Batch
import FormulaScript.Console.Dialogue
import FormulaScript.Console.EquationMode
import FormulaScript.Console.Help
import FormulaScript.Console.Options
import FormulaScript.Console.ScriptMode
import FormulaScript.Console.Usage
import FormulaScript.Diagnostic
import FormulaScript.Equation
import FormulaScript.Evaluation
import FormulaScript.Expr
import FormulaScript.Expr.Outline
import FormulaScript.Expr.Parse
import FormulaScript.Expr.Reader
import FormulaScript.Main
import FormulaScript.Number.Binary64
import FormulaScript.Number.Decimal
import FormulaScript.Number.Integer
import FormulaScript.Number.Literal
import FormulaScript.Number.Rounding
import FormulaScript.Number.Shortest
import FormulaScript.Number.Tolerance
import FormulaScript.Operator
import FormulaScript.Program
import FormulaScript.Proofs.Capacity
import FormulaScript.Proofs.Commands
import FormulaScript.Proofs.Console.EquationMode
import FormulaScript.Proofs.Console.ScriptMode
import FormulaScript.Proofs.Equation
import FormulaScript.Proofs.Evaluation
import FormulaScript.Proofs.Expr.Chains
import FormulaScript.Proofs.Expr.Completeness
import FormulaScript.Proofs.Expr.Faults
import FormulaScript.Proofs.Expr.Gathering
import FormulaScript.Proofs.Expr.Grammar
import FormulaScript.Proofs.Expr.Literals
import FormulaScript.Proofs.Expr.Parentheses
import FormulaScript.Proofs.Expr.Places
import FormulaScript.Proofs.Expr.Positions
import FormulaScript.Proofs.Expr.Progress
import FormulaScript.Proofs.Expr.Reading
import FormulaScript.Proofs.Expr.Reads
import FormulaScript.Proofs.Expr.Recognition
import FormulaScript.Proofs.Expr.Reporting
import FormulaScript.Proofs.Expr.Separation
import FormulaScript.Proofs.Expr.Shape
import FormulaScript.Proofs.Expr.Slots
import FormulaScript.Proofs.Expr.Soundness
import FormulaScript.Proofs.Expr.Spacing
import FormulaScript.Proofs.Expr.Steps
import FormulaScript.Proofs.Expr.Strings
import FormulaScript.Proofs.Expr.Targets
import FormulaScript.Proofs.Expr.Unrolling
import FormulaScript.Proofs.Feedback
import FormulaScript.Proofs.Frame
import FormulaScript.Proofs.Number.Comparison
import FormulaScript.Proofs.Number.Decimals
import FormulaScript.Proofs.Number.Layouts
import FormulaScript.Proofs.Number.Line
import FormulaScript.Proofs.Number.Literal
import FormulaScript.Proofs.Number.Magnitudes
import FormulaScript.Proofs.Number.Nearest
import FormulaScript.Proofs.Number.Numerals
import FormulaScript.Proofs.Number.Printed
import FormulaScript.Proofs.Number.Rounding
import FormulaScript.Proofs.Number.Spelling
import FormulaScript.Proofs.Number.Sums
import FormulaScript.Proofs.Number.Unpacked
import FormulaScript.Proofs.Output
import FormulaScript.Proofs.Program.Places
import FormulaScript.Proofs.Program.Sequence
import FormulaScript.Proofs.Program.Steps
import FormulaScript.Proofs.Random
import FormulaScript.Proofs.Requests
import FormulaScript.Proofs.Script.Assembly
import FormulaScript.Proofs.Script.Assignments
import FormulaScript.Proofs.Script.Braces
import FormulaScript.Proofs.Script.Branching
import FormulaScript.Proofs.Script.Comments
import FormulaScript.Proofs.Script.Conditionals
import FormulaScript.Proofs.Script.Conditions
import FormulaScript.Proofs.Script.Cursors
import FormulaScript.Proofs.Script.Endings
import FormulaScript.Proofs.Script.Harvest
import FormulaScript.Proofs.Script.Joining
import FormulaScript.Proofs.Script.Lines
import FormulaScript.Proofs.Script.Listing
import FormulaScript.Proofs.Script.Literals
import FormulaScript.Proofs.Script.Load
import FormulaScript.Proofs.Script.Marks
import FormulaScript.Proofs.Script.Matching
import FormulaScript.Proofs.Script.Names
import FormulaScript.Proofs.Script.Nesting
import FormulaScript.Proofs.Script.Numbering
import FormulaScript.Proofs.Script.Ordering
import FormulaScript.Proofs.Script.Pieces
import FormulaScript.Proofs.Script.Positions
import FormulaScript.Proofs.Script.Provenance
import FormulaScript.Proofs.Script.Recursion
import FormulaScript.Proofs.Script.Replacement
import FormulaScript.Proofs.Script.Reports
import FormulaScript.Proofs.Script.Rereading
import FormulaScript.Proofs.Script.RoundTrip
import FormulaScript.Proofs.Script.Sequence
import FormulaScript.Proofs.Script.Slices
import FormulaScript.Proofs.Script.Stored
import FormulaScript.Proofs.Script.Structure
import FormulaScript.Proofs.Script.Swaps
import FormulaScript.Proofs.Script.Tests
import FormulaScript.Proofs.Script.Texts
import FormulaScript.Proofs.Script.Trailing
import FormulaScript.Proofs.Script.Units
import FormulaScript.Proofs.Script.Written
import FormulaScript.Proofs.Semicolon
import FormulaScript.Proofs.Session
import FormulaScript.Proofs.Store
import FormulaScript.Proofs.Table
import FormulaScript.Proofs.Text.Blank
import FormulaScript.Proofs.Text.CodeRange
import FormulaScript.Proofs.Text.Swaps
import FormulaScript.Proofs.Token.Boundaries
import FormulaScript.Proofs.Token.Lexemes
import FormulaScript.Proofs.Token.Literals
import FormulaScript.Proofs.Token.Names
import FormulaScript.Proofs.Token.Numbers
import FormulaScript.Proofs.Token.Pauses
import FormulaScript.Proofs.Token.Prefixes
import FormulaScript.Proofs.Token.Respacing
import FormulaScript.Proofs.Token.Scan
import FormulaScript.Proofs.Token.Spacing
import FormulaScript.Proofs.Token.Tiling
import FormulaScript.Proofs.Token.Words
import FormulaScript.Proofs.Variables
import FormulaScript.Random
import FormulaScript.Random.Generator
import FormulaScript.Random.Seed
import FormulaScript.Script
import FormulaScript.Script.Assembly
import FormulaScript.Script.Draft
import FormulaScript.Script.Source
import FormulaScript.Session
import FormulaScript.Text.Blank
import FormulaScript.Text.CodeRange
import FormulaScript.Text.Cursor
import FormulaScript.Text.Digit
import FormulaScript.Text.Letter
import FormulaScript.Text.Lines
import FormulaScript.Text.Location
import FormulaScript.Text.Printable
import FormulaScript.Text.Quoted
import FormulaScript.Token
import FormulaScript.Token.Scan
import FormulaScript.Variables
