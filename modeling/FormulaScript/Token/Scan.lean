import FormulaScript.Diagnostic
import FormulaScript.Number.Literal
import FormulaScript.Text.Blank
import FormulaScript.Text.Letter
import FormulaScript.Token

/-! Reading the tokens of an expression. The text ends at its first NUL. Blanks separate tokens;
what a token covers is decided by its first character and by where the next delimiter stands.
Malformed numbers and unclosed strings are reported and still read whole, so every text has tokens
up to its end. -/

namespace FormulaScript

open Text

namespace Token

/-- The characters that end a name or a number. -/
def delimiters : List Char :=
  [' ', '+', '-', '/', '*', '^', '(', ')', ',', '=', '!', '<', '>', '|', '&', '%',
   '\t', '\r', '\n', '\x00']

/-- Whether a character ends a name or a number. -/
def isDelimiterChar (c : Char) : Bool := delimiters.contains c

/-- The operators of two characters, which are read before those of one. -/
def twoCharOperators : List (Char × Char) :=
  [('=', '='), ('!', '='), ('<', '='), ('>', '='), ('&', '&'), ('|', '|'),
   ('+', '='), ('-', '='), ('*', '='), ('/', '='), ('+', '+'), ('-', '-')]

/-- The characters up to the next delimiter. -/
def run (text : List Char) : List Char := text.takeWhile (!isDelimiterChar ·)

/-- The characters up to the next delimiter that is not the sign of an exponent, that is a `+` or
`-` right after an `e` or `E`. -/
def signedRun (previous : Char) : List Char → List Char
  | [] => []
  | c :: rest =>
    let isExponentSign := (c = '+' || c = '-') && (previous = 'e' || previous = 'E')
    if isDelimiterChar c && !isExponentSign then [] else c :: signedRun c rest

/-- The characters of a number literal. One with a radix mark has no exponent. -/
def numberRun (first : Char) (rest : List Char) : List Char :=
  let hasRadix := first = '0' && (rest.head?.bind Number.radix?).isSome
  first :: if hasRadix then run rest else signedRun first rest

/-- Whether a number literal starts here. -/
def startsNumber (first : Char) (rest : List Char) : Bool :=
  isDigit first || (first = '.' && rest.head?.any isDigit)

/-- A token as it was read: how many characters it covers after its first one, and its problem if
it has one. -/
structure Lexeme where
  kind : Kind
  text : List Char
  more : Nat
  problem : Option Problem := none

/-- Reads one token from a text that starts with a character other than a blank. -/
def Lexeme.read (first : Char) (rest : List Char) : Lexeme :=
  if first = '"' then
    let text := rest.takeWhile (· ≠ '"')
    if text.length < rest.length then ⟨.string, text, text.length + 1, none⟩
    else ⟨.string, text, text.length, some .unbalancedQuotes⟩
  else if isDelimiterChar first then
    match rest with
    | second :: _ =>
      if twoCharOperators.contains (first, second) then ⟨.delimiter, [first, second], 1, none⟩
      else ⟨.delimiter, [first], 0, none⟩
    | [] => ⟨.delimiter, [first], 0, none⟩
  else if startsNumber first rest then
    let text := numberRun first rest
    let value? := Number.decode? text
    let problem := if value?.isSome then none else some (.invalidNumber (String.ofList text))
    ⟨.number value?, text, text.length - 1, problem⟩
  else
    let text := first :: run rest
    if isLetter first then
      let after := (rest.drop (text.length - 1)).dropWhile isBlank
      ⟨if after.head? = some '(' then .function else .name, text, text.length - 1, none⟩
    else ⟨.unknown, text, text.length - 1, none⟩

/-- The tokens of a text without NUL that starts at a position and a location, and the problems of
its tokens. -/
def scanFrom (position : Nat) (location : Location) (text : List Char) :
    List Token × List Diagnostic :=
  let blanks := text.takeWhile isBlank
  let position := position + blanks.length
  let location := location.advance blanks
  match _h : text.dropWhile isBlank with
  | [] => ([⟨.finish, "", position, location⟩], [])
  | first :: rest =>
    let lexeme := Lexeme.read first rest
    let token := ⟨lexeme.kind, String.ofList lexeme.text, position, location⟩
    let diagnostics := lexeme.problem.toList.map fun problem => ⟨problem, none, some position⟩
    let (tokens, others) := scanFrom (position + (lexeme.more + 1))
      (location.advance (first :: rest.take lexeme.more)) (rest.drop lexeme.more)
    (token :: tokens, diagnostics ++ others)
termination_by text.length
decreasing_by
  have := (List.dropWhile_suffix isBlank (l := text)).length_le
  simp only [_h, List.length_cons, List.length_drop] at this ⊢
  omega

/-- The part of a text before its first NUL. -/
def beforeNul (text : List Char) : List Char := text.takeWhile (· ≠ '\x00')

/-- The tokens of a text, the last of which is its end, and the problems of its tokens. -/
def scan (text : List Char) : List Token × List Diagnostic := scanFrom 0 {} (beforeNul text)

end Token

end FormulaScript
