import FormulaScript.Proofs.Token.Lexemes

/-!
# Where every lexeme ends

Some of the delimiters are no signs and belong to no operator of two characters. Whatever lexeme
comes before one of them ends there, as it does where the text ends.
-/

namespace FormulaScript.Token

open Text

/-- The blanks that an expression of a script may hold. -/
def isSpace (c : Char) : Bool := c = ' ' || c = '\t'

theorem isSpace_iff {c : Char} : isSpace c ↔ c = ' ' ∨ c = '\t' := by
  simp [isSpace]

theorem isBlank_of_isSpace {c : Char} (h : isSpace c) : isBlank c := by
  rcases isSpace_iff.1 h with rfl | rfl <;> decide

/-- The blanks that are delimiters. -/
def separators : List Char := [' ', '\t', '\r', '\n']

theorem isBlank_of_mem_separators {c : Char} (h : c ∈ separators) : isBlank c := by
  simp only [separators, List.mem_cons, List.not_mem_nil, or_false] at h
  rcases h with rfl | rfl | rfl | rfl <;> decide

theorem mem_separators_of_isSpace {c : Char} (h : isSpace c) : c ∈ separators := by
  rcases isSpace_iff.1 h with rfl | rfl <;> decide

/-- The characters that end every lexeme in front of them. -/
def pauses : List Char := separators ++ [',', ')']

theorem mem_pauses_of_isSpace {c : Char} (h : isSpace c) : c ∈ pauses :=
  List.mem_append_left _ (mem_separators_of_isSpace h)

/-- No lexeme goes on into the text. -/
def Paused (text : List Char) : Prop := ∀ c ∈ text.head?, c ∈ pauses

/-- No lexeme goes on into the text, and no name in front of it is a function. -/
structure Pauses (text : List Char) : Prop where
  head : Paused text
  after : ∀ c ∈ (text.dropWhile isBlank).head?, c ≠ '('

theorem paused_cons_separator {rest : List Char} (h : c ∈ separators) : Paused (c :: rest) := by
  rintro _ ⟨⟩
  exact List.mem_append_left _ h

theorem paused_cons {rest : List Char} (h : isSpace c) : Paused (c :: rest) :=
  paused_cons_separator (mem_separators_of_isSpace h)

theorem dropWhile_blanks {x : Char} {xs : List Char} (hx : isBlank x) (hxs : ∀ c ∈ xs, isBlank c)
    (text : List Char) : (x :: (xs ++ text)).dropWhile isBlank = text.dropWhile isBlank := by
  rw [List.dropWhile_cons_of_pos hx, List.dropWhile_append_of_pos hxs]

variable {a : List Char} {first : Char}

/-! ## One lexeme -/

theorem isDelimiterChar_of_pause {c : Char} (h : c ∈ pauses) : isDelimiterChar c :=
  List.all_eq_true.1 (by decide : pauses.all isDelimiterChar) c h

theorem run_eq_nil {text : List Char} (h : ∀ c ∈ text.head?, isDelimiterChar c) :
    run text = [] := by
  cases text with
  | nil => rfl
  | cons c text => exact List.takeWhile_cons_of_neg (by simp [h c rfl])

theorem run_append {word text : List Char} (hw : word.all (!isDelimiterChar ·))
    (h : ∀ c ∈ text.head?, isDelimiterChar c) : run (word ++ text) = word := by
  have hn := run_eq_nil h
  unfold run at hn ⊢
  rw [List.takeWhile_append_of_pos (List.all_eq_true.1 hw), hn, List.append_nil]

theorem run_of_pause (h : Paused a) : run a = [] :=
  run_eq_nil fun c hc => isDelimiterChar_of_pause (h c hc)

theorem signedRun_of_pause (h : Paused a) (previous : Char) :
    signedRun previous a = [] := by
  cases a with
  | nil => rfl
  | cons c a =>
    have hd := isDelimiterChar_of_pause (h c rfl)
    have hall : pauses.all fun c => c ≠ '+' ∧ c ≠ '-' := by decide
    have hsign : c ≠ '+' ∧ c ≠ '-' := by simpa using List.all_eq_true.1 hall c (h c rfl)
    simp [signedRun, hd, hsign]

theorem startsNumber_of_pause (h : Paused a) (first : Char) :
    startsNumber first a = isDigit first := by
  cases a with
  | nil => simp [startsNumber]
  | cons c a =>
    have hall : pauses.all (!isDigit ·) := by decide
    have hdigit : isDigit c = false := by simpa using List.all_eq_true.1 hall c (h c rfl)
    simp [startsNumber, hdigit]

theorem radix?_of_pause (h : Paused a) : a.head?.bind Number.radix? = none := by
  cases a with
  | nil => rfl
  | cons c a =>
    have hall : pauses.all (Number.radix? · |>.isNone) := by decide
    exact Option.isNone_iff_eq_none.1 (List.all_eq_true.1 hall c (h c rfl))

theorem twoCharOperators_of_pause {c second : Char} (h : second ∈ pauses) :
    twoCharOperators.contains (c, second) = false := by
  have hall : ∀ symbols ∈ twoCharOperators, symbols.2 ∉ pauses := by decide
  exact Bool.eq_false_iff.2 fun ho => hall _ (List.contains_iff_mem.1 ho) h

theorem read_of_pause (hq : first ≠ '"') (hd : isDelimiterChar first) (h : Paused a) :
    Lexeme.read first a = ⟨.delimiter, [first], 0, none⟩ := by
  unfold Lexeme.read
  rw [if_neg hq, if_pos hd]
  cases a with
  | nil => rfl
  | cons second a =>
    dsimp only
    rw [twoCharOperators_of_pause (h second rfl)]
    rfl

end FormulaScript.Token
