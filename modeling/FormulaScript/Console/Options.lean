import FormulaScript.Number.Integer
import FormulaScript.Number.Tolerance
import FormulaScript.Text.Quoted

/-! Command line options. A word of the command line is a value or names options: a long option by
any prefix of its name that no other long option shares, with a value after `=` if it has one;
short options by their letters, bundled as long as they take no value, the last of them with its
value if it takes one. An option that takes a value and has none in its own word takes the next
word. The value `--` is dropped, as the word `--` is no value either: what it leaves is the empty
text, or the number zero. All words are told apart first, then the options take effect from left
to right. -/

namespace FormulaScript

/-- The options. -/
inductive Switch
  | help
  | simpleMode
  | script
  | file
  | runs
  | tolerance
  | verbose
deriving DecidableEq, Repr

namespace Switch

/-- The letter of an option. -/
def letters : List (Char × Switch) :=
  [('h', help), ('e', simpleMode), ('s', script), ('f', file)]

/-- The long name of an option. -/
def longName : Switch → String
  | help => "--help"
  | simpleMode => "--simple-mode"
  | script => "--script"
  | file => "--file"
  | runs => "--run"
  | tolerance => "--ulp"
  | verbose => "--verbose"

/-- All options in the order in which messages name them. -/
def all : List Switch := [help, simpleMode, script, file, runs, tolerance, verbose]

/-- Whether an option takes a value. -/
def takesValue : Switch → Bool
  | script | file | runs | tolerance => true
  | help | simpleMode | verbose => false

/-- An option with all its names, as messages show it. -/
def title (switch : Switch) : String :=
  match letters.find? (·.2 = switch) with
  | some (letter, _) => s!"-{letter}/{switch.longName}"
  | none => switch.longName

/-- The options of which a command line may have one at most. -/
def modes : List Switch := [simpleMode, script, file]

end Switch

/-- What is wrong with a command line. -/
inductive UsageError
  /-- A prefix that several long options share. -/
  | ambiguous (word : String) (candidates : List Switch)
  /-- A value in the word of an option that takes none. -/
  | ignoredValue (switch : Switch) (value : String)
  /-- An option without the value that it takes. -/
  | missingValue (switch : Switch)
  /-- A value that is no integer. -/
  | notInteger (switch : Switch) (value : String)
  /-- Two modes at once. -/
  | conflict (switch earlier : Switch)
  /-- Words that are neither options nor values of options. -/
  | unrecognized (words : List String)
  /-- A number of runs without a script to run. -/
  | nothingToRun
  /-- A number of runs below one. -/
  | runsNotPositive
deriving DecidableEq, Repr

/-- The description of a wrong command line. -/
def UsageError.message : UsageError → String
  | ambiguous word candidates =>
    s!"ambiguous option: {word} could match " ++ ", ".intercalate (candidates.map (·.longName))
  | ignoredValue switch value =>
    s!"argument {switch.title}: ignored explicit argument {Text.quoted value}"
  | missingValue switch => s!"argument {switch.title}: expected one argument"
  | notInteger switch value =>
    s!"argument {switch.title}: invalid int value: {Text.quoted value}"
  | conflict switch earlier =>
    s!"argument {switch.title}: not allowed with argument {earlier.title}"
  | unrecognized words => "unrecognized arguments: " ++ " ".intercalate words
  | nothingToRun => "--run needs a script (-s or -f)"
  | runsNotPositive => "--run expects a positive number of runs"

/-- Why the reading of a command line stops: it asks for help, or something is wrong with it. -/
inductive Halt
  | help
  | usage (problem : UsageError)
deriving DecidableEq, Repr

/-- What the command line sets. -/
structure Options where
  simpleMode : Bool := false
  script : Option String := none
  file : Option String := none
  runs : Option Int := none
  tolerance : Int := Number.defaultTolerance
  verbose : Bool := false
  unrecognized : List String := []

namespace Options

/-! ## Words -/

/-- How a word of the command line reads. -/
inductive Word
  | value
  /-- The word `--`, after which all words are values. It is not the value of an option itself. -/
  | separator
  /-- An option by its letter, and what stands after the letter. -/
  | short (switch : Switch) (rest : List Char)
  /-- An option by its name, and its value if it has one. -/
  | long (switch : Switch) (value : Option String)
  | unknown
deriving DecidableEq, Repr

/-- Whether a word is a negative number, a line feed after it allowed. -/
def isNegativeNumber : List Char → Bool
  | '-' :: text =>
    let text := if text.getLast? = some '\n' then text.dropLast else text
    match text.dropWhile Text.isDecimalDigit with
    | [] => !text.isEmpty
    | '.' :: fraction => !fraction.isEmpty && fraction.all Text.isDecimalDigit
    | _ => false
  | _ => false

/-- How a word reads that starts like an option and names none. -/
def unnamed (word : List Char) : Word :=
  if isNegativeNumber word || word.contains ' ' then .value else .unknown

/-- Reads a word that starts with two dashes and has more after them. -/
def longWord (word : List Char) : Except UsageError Word :=
  let name := word.takeWhile (· ≠ '=')
  let value := (word.dropWhile (· ≠ '=')).tail?.map String.ofList
  match Switch.all.filter fun switch => name.isPrefixOf switch.longName.toList with
  | [] => .ok (unnamed word)
  | [switch] => .ok (.long switch value)
  | candidates => .error (.ambiguous (String.ofList word) candidates)

/-- Reads a word before any separator. -/
def word (text : List Char) : Except UsageError Word :=
  match text with
  | '-' :: '-' :: _ => if text.length = 2 then .ok .separator else longWord text
  | '-' :: letter :: rest =>
    match Switch.letters.lookup letter with
    | some switch => .ok (.short switch rest)
    | none => .ok (unnamed text)
  | _ => .ok .value

/-- Tells the words of a command line apart. -/
def words : List String → Except UsageError (List (String × Word))
  | [] => .ok []
  | text :: rest => do
    match ← word text.toList with
    | .separator => return (text, .separator) :: rest.map (·, .value)
    | other => return (text, other) :: (← words rest)

/-! ## Options in a word -/

/-- The options that one word names: those that are complete, each with its value if it takes one,
and the one that still lacks its value. -/
structure Bundle where
  complete : List (Switch × Option String) := []
  pending : Option Switch := none

/-- An option by itself. -/
def Bundle.single (switch : Switch) : Bundle :=
  if switch.takesValue then { pending := some switch } else { complete := [(switch, none)] }

/-- An option with a value. -/
def Bundle.valued (switch : Switch) (value : String) : Except UsageError Bundle :=
  if switch.takesValue then .ok { complete := [(switch, some value)] }
  else .error (.ignoredValue switch value)

/-- Reads the options from a letter on. What follows the letter is the value of an option that
takes one, and more letters otherwise. -/
def ofLetters (switch : Switch) : List Char → Except UsageError Bundle
  | [] => .ok (.single switch)
  | letter :: rest =>
    if switch.takesValue then Bundle.valued switch (String.ofList (letter :: rest))
    else
      match Switch.letters.lookup letter with
      | none => .error (.ignoredValue switch (String.ofList (letter :: rest)))
      | some next => do
        let bundle ← ofLetters next rest
        return { bundle with complete := (switch, none) :: bundle.complete }

/-- Reads the options of a word from its first letter on. A `=` after this letter does not count; if
nothing follows it, the empty text is the value. -/
def ofShort (switch : Switch) : List Char → Except UsageError Bundle
  | ['='] => Bundle.valued switch ""
  | '=' :: rest => ofLetters switch rest
  | rest => ofLetters switch rest

/-- The option of a long name. -/
def ofName (switch : Switch) : Option String → Except UsageError Bundle
  | none => .ok (.single switch)
  | some value => Bundle.valued switch value

/-! ## Effects -/

/-- Whether a mode has been chosen. -/
def chosen (options : Options) : Switch → Bool
  | .simpleMode => options.simpleMode
  | .script => options.script.isSome
  | .file => options.file.isSome
  | _ => false

/-- Fails if another mode than the given one has been chosen. -/
def checkMode (switch : Switch) (options : Options) : Except Halt Unit :=
  match (Switch.modes.erase switch).find? options.chosen with
  | some earlier => .error (.usage (.conflict switch earlier))
  | none => .ok ()

/-- The text that a value stands for. -/
def textOf (value : String) : String := if value = "--" then "" else value

/-- The integer that a value stands for. -/
def integerOf (switch : Switch) (value : String) : Except Halt Int :=
  if value = "--" then .ok 0
  else
    match Number.signedInteger? value with
    | some n => .ok n
    | none => .error (.usage (.notInteger switch value))

/-- Lets an option take effect; `value` is the value of one that takes a value. -/
def apply (options : Options) (switch : Switch) (value : String) : Except Halt Options := do
  match switch with
  | .help => .error .help
  | .simpleMode =>
    checkMode .simpleMode options
    return { options with simpleMode := true }
  | .script =>
    checkMode .script options
    return { options with script := some (textOf value) }
  | .file =>
    checkMode .file options
    return { options with file := some (textOf value) }
  | .runs => return { options with runs := some (← integerOf .runs value) }
  | .tolerance => return { options with tolerance := ← integerOf .tolerance value }
  | .verbose => return { options with verbose := true }

/-- Adds a word that is neither an option nor the value of one. -/
def reject (options : Options) (text : String) : Options :=
  { options with unrecognized := options.unrecognized ++ [text] }

/-- Lets the complete options of a word take effect, in order. -/
def applyBundle (options : Options) (bundle : Bundle) : Except Halt Options :=
  bundle.complete.foldlM (fun options (switch, value) => options.apply switch (value.getD ""))
    options

/-- The options that a word names, if it is a word of options. -/
def bundle : Word → Option (Except UsageError Bundle)
  | .short switch rest => some (ofShort switch rest)
  | .long switch value => some (ofName switch value)
  | _ => none

/-- Lets the words of a command line take effect, in order. -/
def take : List (String × Word) → Options → Except Halt Options
  | [], options => .ok options
  | (text, word) :: rest, options =>
    match bundle word with
    | none => take rest (options.reject text)
    | some bundle => do
      let bundle ← bundle.mapError .usage
      match bundle.pending, rest with
      | none, rest => take rest (← options.applyBundle bundle)
      | some switch, (value, .value) :: rest =>
        take rest (← (← options.applyBundle bundle).apply switch value)
      | some switch, _ => .error (.usage (.missingValue switch))

/-- Reads a command line. -/
def ofArguments (arguments : List String) : Except Halt Options := do
  let options ← take (← (words arguments).mapError .usage) {}
  if options.unrecognized.isEmpty then return options
  else .error (.usage (.unrecognized options.unrecognized))

end Options

end FormulaScript
