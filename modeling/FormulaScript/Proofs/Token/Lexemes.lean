import FormulaScript.Proofs.Token.Scan

/-!
# Lexemes

What the tokens of a text are does not depend on where they stand. `lexemes` reads them without
positions. In a text without strings they stay the same when spaces between them become more or
fewer, and those before a comma do not depend on what follows it.
-/

namespace FormulaScript.Token

open Text

/-- The tokens of a text as they are read, without the one that ends it. -/
def lexemes (text : List Char) : List Lexeme :=
  match _h : text.dropWhile isBlank with
  | [] => []
  | first :: rest =>
    Lexeme.read first rest :: lexemes (rest.drop (Lexeme.read first rest).more)
termination_by text.length
decreasing_by
  have := (List.dropWhile_suffix isBlank (l := text)).length_le
  simp only [_h, List.length_cons, List.length_drop] at this ⊢
  omega

/-- What a token is, wherever it stands. -/
def shape (token : Token) : Kind × String := (token.kind, token.text)

/-- What the token of a lexeme is. -/
def Lexeme.shape (lexeme : Lexeme) : Kind × String := (lexeme.kind, String.ofList lexeme.text)

variable {source rest : List Char} {first : Char}

theorem lexemes_eq_nil (h : source.dropWhile isBlank = []) : lexemes source = [] := by
  rw [lexemes]
  split
  · rfl
  · simp_all

theorem lexemes_eq_cons (h : source.dropWhile isBlank = first :: rest) :
    lexemes source = Lexeme.read first rest ::
      lexemes (rest.drop (Lexeme.read first rest).more) := by
  rw [lexemes]
  split
  · simp_all
  · next heq =>
    cases heq.symm.trans h
    rfl

/-- The tokens of a text are its lexemes and an end, and it has no faults if these have none. -/
theorem scanFrom_lexemes (position : Nat) (location : Location) (source : List Char) :
    (scanFrom position location source).1.map shape =
        (lexemes source).map Lexeme.shape ++ [(.finish, "")] ∧
      ((scanFrom position location source).2 = [] ↔
        ∀ lexeme ∈ lexemes source, lexeme.problem = none) := by
  refine scanFrom_induction (motive := fun source scanned =>
    scanned.1.map shape = (lexemes source).map Lexeme.shape ++ [(.finish, "")] ∧
      (scanned.2 = [] ↔ ∀ lexeme ∈ lexemes source, lexeme.problem = none)) ?_ ?_ position location
      source
  · intro source position location h
    rw [lexemes_eq_nil h]
    exact ⟨rfl, by simp⟩
  · intro source first rest position location tail h ih
    rw [lexemes_eq_cons h]
    refine ⟨?_, ?_⟩
    · rw [List.map_cons, ih.1]
      rfl
    · simp [ih.2, Lexeme.diagnostics]

theorem lexemes_append_of_blank (h : ∀ c ∈ blanks, isBlank c) (source : List Char) :
    lexemes (blanks ++ source) = lexemes source := by
  have hd : (blanks ++ source).dropWhile isBlank = source.dropWhile isBlank :=
    List.dropWhile_append_of_pos h
  cases hr : source.dropWhile isBlank with
  | nil => rw [lexemes_eq_nil hr, lexemes_eq_nil (hd.trans hr)]
  | cons first rest => rw [lexemes_eq_cons hr, lexemes_eq_cons (hd.trans hr)]

theorem lexemes_cons_of_blank (h : isBlank c) (source : List Char) :
    lexemes (c :: source) = lexemes source :=
  lexemes_append_of_blank (List.forall_mem_singleton.2 h) source

/-! ## Scans -/

theorem shapes_scan (h : '\x00' ∉ source) :
    (beforeFinish (scan source).1).map shape = (lexemes source).map Lexeme.shape := by
  obtain ⟨last, hl, hf⟩ := scan_eq source
  have hs := (scanFrom_lexemes 0 {} source).1
  rw [← scan_eq_scanFrom h, hl, List.map_append] at hs
  exact (List.append_inj' hs rfl).1

theorem scan_faultless_iff (h : '\x00' ∉ source) :
    (scan source).2 = [] ↔ ∀ lexeme ∈ lexemes source, lexeme.problem = none := by
  rw [scan_eq_scanFrom h]
  exact (scanFrom_lexemes 0 {} source).2

end FormulaScript.Token
