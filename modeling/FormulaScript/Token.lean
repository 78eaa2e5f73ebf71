import FormulaScript.Text.Location

/-! Tokens of expressions. -/

namespace FormulaScript

/-- The kinds of tokens. -/
inductive Token.Kind
  /-- A number literal with its value, if it is well formed. -/
  | number (value : Option Float)
  /-- A name that no parenthesis follows. -/
  | name
  /-- A name that a parenthesis follows. -/
  | function
  /-- A text in double quotes. -/
  | string
  /-- An operator, a parenthesis or a comma. -/
  | delimiter
  /-- A run of characters that starts no other token. -/
  | unknown
  /-- The end of the text. -/
  | finish

/-- The code of a kind. -/
def Token.Kind.code : Token.Kind → String
  | number _ => "NUMBER"
  | name => "VARIABLE"
  | function => "FUNCTION"
  | string => "STRING"
  | delimiter => "DELIMITER"
  | unknown => "UNKNOWN"
  | finish => "END"

/-- A token, its text without quotes, and where it starts: the position counts characters from 0
and the location lines and columns. -/
structure Token where
  kind : Token.Kind
  text : String
  position : Nat := 0
  location : Location := {}

namespace Token

/-- The value of a well-formed number literal. -/
def value? (token : Token) : Option Float :=
  match token.kind with
  | .number value? => value?
  | _ => none

/-- Whether the token ends the text. -/
def isFinish (token : Token) : Bool :=
  match token.kind with
  | .finish => true
  | _ => false

/-- Whether the token is the delimiter with the given text. -/
def isDelimiter (token : Token) (text : String) : Bool :=
  match token.kind with
  | .delimiter => token.text == text
  | _ => false

/-- The token with its parts named. -/
def inspect (token : Token) : String := s!"Token({token.kind.code}, {token.text})"

end Token

end FormulaScript
