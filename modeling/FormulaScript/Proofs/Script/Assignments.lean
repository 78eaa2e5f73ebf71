import FormulaScript.Proofs.Script.RoundTrip

/-!
# Assignments

An assignment is put together from the text of a variable and that of a value: an expression in
parentheses, or a conditional of three. The lexemes of such a text are those of its parts and some
more, so what it forms follows from what its parts form.
-/

namespace FormulaScript

open Token

/-! ## Spelling -/

/-- The lexemes of a conditional expression, from those of its condition and its values. -/
def Token.conditionalLexemes (cs ls₁ ls₂ : List Lexeme) : List Lexeme :=
  Lexeme.ifName :: Lexeme.symbol '(' ::
    (cs ++ Lexeme.symbol ',' :: (ls₁ ++ Lexeme.symbol ',' :: ls₂)) ++ [Lexeme.symbol ')']

namespace Expr.Spells

variable {names : List String} {x e c e₁ e₂ : Expr} {ls xs cs ls₁ ls₂ : List Lexeme}

theorem isDelimiter_symbol (c : Char) :
    (Lexeme.symbol c).unplaced.isDelimiter (String.ofList [c]) :=
  Script.isDelimiter_of_symbol rfl

theorem of_operand (h : Spells names .operand ls e) : Spells names .assignment ls e :=
  ⟨h.faultless, h.derives.of_operand⟩

theorem whole (hv : Number.decode? [digit, '.'] = some value) :
    Spells names .assignment [Lexeme.whole digit] (.literal value {}) where
  faultless := List.forall_mem_singleton.2 rfl
  derives := (Derives.number (congrArg Kind.number hv)).of_operand

theorem faultless_between (h : ∀ lexeme ∈ xs, lexeme.problem = none)
    (h' : ∀ lexeme ∈ ls, lexeme.problem = none) (c : Char) :
    ∀ lexeme ∈ xs ++ Lexeme.symbol c :: ls, lexeme.problem = none :=
  List.forall_mem_append.2 ⟨h, List.forall_mem_cons.2 ⟨rfl, h'⟩⟩

theorem faultless_within (h : ∀ lexeme ∈ ls, lexeme.problem = none) :
    ∀ lexeme ∈ Lexeme.symbol '(' :: ls ++ [Lexeme.symbol ')'], lexeme.problem = none :=
  List.forall_mem_append.2 ⟨List.forall_mem_cons.2 ⟨rfl, h⟩, List.forall_mem_singleton.2 rfl⟩

theorem group (h : Spells names .assignment ls e) :
    Spells names .operand (Lexeme.symbol '(' :: ls ++ [Lexeme.symbol ')']) e where
  faultless := faultless_within h.faultless
  derives := by
    rw [List.map_append, List.map_cons]
    exact .group (isDelimiter_symbol '(') h.derives (isDelimiter_symbol ')')

theorem assign (hx : Spells names .assignment xs x) (ha : x.isAssignable)
    (h : Spells names .operand ls e) :
    Spells names .assignment (xs ++ Lexeme.symbol '=' :: ls) (.assign x e {}) where
  faultless := faultless_between hx.faultless h.faultless '='
  derives := by
    rw [List.map_append, List.map_cons]
    exact .assign hx.derives ha (isDelimiter_symbol '=') h.derives.disjunction_of_operand

theorem conditional (hc : Spells names .assignment cs c) (h₁ : Spells names .assignment ls₁ e₁)
    (h₂ : Spells names .assignment ls₂ e₂) :
    Spells names .operand (conditionalLexemes cs ls₁ ls₂) (.conditional c e₁ e₂ {}) where
  faultless := List.forall_mem_cons.2 ⟨rfl, faultless_within <|
    faultless_between hc.faultless (faultless_between h₁.faultless h₂.faultless ',') ','⟩
  derives := by
    have hk : Lexeme.ifName.unplaced.kind = .function := rfl
    have hn : Lexeme.ifName.unplaced.text = "if" := rfl
    rw [conditionalLexemes, List.map_append, List.map_cons, List.map_cons, List.map_append,
      List.map_cons, List.map_append, List.map_cons]
    exact .conditional hk hn (isDelimiter_symbol '(') hc.derives (isDelimiter_symbol ',')
      h₁.derives (isDelimiter_symbol ',') h₂.derives (isDelimiter_symbol ')')

end Expr.Spells

namespace Script

open Text

/-! ## Joined texts -/

/-- Two characters in a row stand in the first text or in the second, or on both sides of the
place where these meet. -/
theorem infix_of_append {a b : List Char} {c d : Char} (h : [c, d] <:+: a ++ b) :
    [c, d] <:+: a ∨ [c, d] <:+: b ∨ a.getLast? = some c ∧ b.head? = some d := by
  obtain ⟨front, back, hs⟩ := h
  rw [List.append_assoc] at hs
  rcases List.append_eq_append_iff.1 hs with ⟨mid, rfl, hm⟩ | ⟨mid, rfl, rfl⟩
  · match mid, hm with
    | [], hm => exact .inr (.inl ⟨[], back, hm⟩)
    | [_], hm =>
      cases hm
      exact .inr (.inr ⟨List.getLast?_concat, rfl⟩)
    | _ :: _ :: mid, hm =>
      cases hm
      exact .inl ⟨front, mid, by simp⟩
  · exact .inr (.inl ⟨mid, back, List.append_assoc ..⟩)

theorem Plain.append {a b : List Char} (ha : Plain a) (hb : Plain b)
    (h : a.getLast? = some '/' → ∀ c ∈ b.head?, c ≠ '/' ∧ c ≠ '*') : Plain (a ++ b) where
  blanks := List.forall_mem_append.2 ⟨ha.blanks, hb.blanks⟩
  symbols := List.forall_mem_append.2 ⟨ha.symbols, hb.symbols⟩
  comments := by
    refine ⟨fun hi => ?_, fun hi => ?_⟩
    · obtain hi | hi | ⟨hl, hh⟩ := infix_of_append hi
      · exact ha.comments.1 hi
      · exact hb.comments.1 hi
      · exact (h hl _ hh).1 rfl
    · obtain hi | hi | ⟨hl, hh⟩ := infix_of_append hi
      · exact ha.comments.2 hi
      · exact hb.comments.2 hi
      · exact (h hl _ hh).2 rfl

/-- Plain texts with a word between them are plain, unless the word completes a comment. -/
theorem Plain.between {a b word : List Char} (ha : Plain a) (hb : Plain b) (hw : Plain word)
    (hh : word.head?.all fun c => c ≠ '/' ∧ c ≠ '*') (hl : word.getLast?.any (· ≠ '/')) :
    Plain (a ++ word ++ b) := by
  refine (ha.append hw fun _ c hc => ?_).append hb fun hlast => ?_
  · simpa [Option.mem_def.1 hc] using hh
  · rw [List.getLast?_append] at hlast
    cases hw : word.getLast? with
    | none => simp [hw] at hl
    | some d =>
      rw [hw, Option.some_or] at hlast
      cases hlast
      simp [hw] at hl

theorem plain_nil : Plain [] := by decide

variable {x c text e₁ e₂ : List Char}

/-- A text in parentheses. -/
def grouped (text : List Char) : List Char := '(' :: text ++ [')']

/-- A conditional expression. -/
def conditional (c e₁ e₂ : List Char) : List Char :=
  ['i', 'f', '('] ++ c ++ [',', ' '] ++ e₁ ++ [',', ' '] ++ e₂ ++ [')']

/-- An assignment. -/
def assignment (x text : List Char) : List Char := x ++ [' ', '=', ' '] ++ text

theorem Plain.grouped (h : Plain text) : Plain (grouped text) := by
  have hp : Plain ([] ++ ['('] ++ text ++ [')'] ++ []) :=
    (plain_nil.between h (by decide) (by decide) (by decide)).between plain_nil (by decide)
      (by decide) (by decide)
  simpa [Script.grouped] using hp

theorem Plain.assignment (hx : Plain x) (h : Plain text) : Plain (assignment x text) :=
  hx.between h (by decide) (by decide) (by decide)

theorem Plain.conditional (hc : Plain c) (h₁ : Plain e₁) (h₂ : Plain e₂) :
    Plain (conditional c e₁ e₂) := by
  have hp : Plain ([] ++ ['i', 'f', '('] ++ c ++ [',', ' '] ++ e₁ ++ [',', ' '] ++ e₂ ++
      [')'] ++ []) :=
    (((plain_nil.between hc (by decide) (by decide) (by decide)).between h₁ (by decide)
      (by decide) (by decide)).between h₂ (by decide) (by decide) (by decide)).between plain_nil
        (by decide) (by decide) (by decide)
  simpa [Script.conditional] using hp

theorem lexemes_grouped (h : Closed text) :
    lexemes (grouped text) = Lexeme.symbol '(' :: lexemes text ++ [Lexeme.symbol ')'] := by
  rw [grouped, List.cons_append, lexemes_cons_symbol (by decide) (by decide) (by decide),
    h.lexemes_append (alike_symbol (.inr rfl) []), lexemes_closing]
  rfl

theorem lexemes_assignment (hx : Closed x) (text : List Char) :
    lexemes (assignment x text) = lexemes x ++ Lexeme.symbol '=' :: lexemes text := by
  have hd : (' ' :: '=' :: ' ' :: text).dropWhile isBlank = '=' :: ' ' :: text := rfl
  have hr : Lexeme.read '=' (' ' :: text) = Lexeme.symbol '=' := rfl
  have he : lexemes (' ' :: '=' :: ' ' :: text) = Lexeme.symbol '=' :: lexemes text := by
    rw [lexemes_eq_cons hd, hr]
    exact congrArg _ (lexemes_cons_of_blank (by decide) text)
  have ht : assignment x text = x ++ ' ' :: '=' :: ' ' :: text := List.append_assoc ..
  rw [ht, hx.lexemes_append (alike_space (by decide) (by decide) (by decide) _), he]

theorem lexemes_conditional (hc : Closed c) (h₁ : Closed e₁) (h₂ : Closed e₂) :
    lexemes (conditional c e₁ e₂) =
      conditionalLexemes (lexemes c) (lexemes e₁) (lexemes e₂) := by
  have ht : conditional c e₁ e₂ =
      "if(".toList ++ (c ++ ',' :: ' ' :: (e₁ ++ ',' :: ' ' :: (e₂ ++ [')']))) := by
    simp [conditional]
  rw [ht, lexemes_if, hc.lexemes_append_comma, lexemes_cons_of_blank (by decide),
    h₁.lexemes_append_comma, lexemes_cons_of_blank (by decide),
    h₂.lexemes_append (alike_symbol (.inr rfl) []), lexemes_closing, conditionalLexemes]
  simp

/-! ## Expressions of joined texts -/

/-- The text is plain and forms the expression. -/
structure PlainForms (names : List String) (text : List Char) (e : Expr) : Prop
    extends Plain text, Expr.Forms names text e

namespace PlainForms

variable {names : List String} {vars : Variables} {e target condition value value₁ value₂ : Expr}

theorem closed (h : PlainForms names text e) : Closed text := closed_of_not_mem h.not_mem_quote

theorem spells (h : PlainForms names text e) :
    Expr.Spells names .assignment (lexemes text) e.unplaced := h.toForms.spells h.not_mem_nul

theorem of_spells (h : Expr.Spells names .assignment (lexemes text) e) (hp : Plain text) :
    ∃ e', PlainForms names text e' ∧ e'.unplaced = e := by
  obtain ⟨e', he, hu⟩ := h.exists_forms hp.not_mem_nul
  exact ⟨e', ⟨hp, he⟩, hu⟩

theorem exists_test (h : PlainForms names c condition) :
    ∃ test, Expr.Forms names (wrapped c) test ∧
      test.unplaced = .conditional condition.unplaced (.literal 1.0 {}) (.literal 0.0 {}) {} := by
  have hone : Expr.Spells names .assignment [Lexeme.whole '1'] (.literal 1.0 {}) :=
    .whole (by decide +kernel)
  have hzero : Expr.Spells names .assignment [Lexeme.whole '0'] (.literal 0.0 {}) :=
    .whole (by decide +kernel)
  have hl : lexemes (wrapped c) =
      conditionalLexemes (lexemes c) [Lexeme.whole '1'] [Lexeme.whole '0'] := by
    rw [lexemes_wrapped h.closed, conditionalLexemes]
    simp
  refine Expr.Spells.exists_forms ?_ (not_mem_wrapped h.not_mem_nul)
  rw [hl]
  exact (h.spells.conditional hone hzero).of_operand

theorem exists_assignment (hx : PlainForms names x target) (hv : target.isVariable)
    (hp : Plain text) (h : Expr.Spells names .operand (lexemes text) e) :
    ∃ assign, PlainForms names (assignment x text) assign ∧
      assign.unplaced = .assign target.unplaced e {} := by
  have ha : target.unplaced.isAssignable :=
    (Expr.isAssignable_unplaced target).trans (Expr.isAssignable_of_isVariable hv)
  refine of_spells ?_ (hx.assignment hp)
  rw [lexemes_assignment hx.closed]
  exact hx.spells.assign ha h

theorem exists_grouped (hx : PlainForms names x target) (hv : target.isVariable)
    (h : PlainForms names text value) :
    ∃ assign, PlainForms names (assignment x (grouped text)) assign ∧
      assign.unplaced = .assign target.unplaced value.unplaced {} := by
  refine hx.exists_assignment hv h.grouped ?_
  rw [lexemes_grouped h.closed]
  exact h.spells.group

theorem exists_conditional (hx : PlainForms names x target) (hv : target.isVariable)
    (hc : PlainForms names c condition) (h₁ : PlainForms names e₁ value₁)
    (h₂ : PlainForms names e₂ value₂) :
    ∃ assign, PlainForms names (assignment x (conditional c e₁ e₂)) assign ∧
      assign.unplaced = .assign target.unplaced
        (.conditional condition.unplaced value₁.unplaced value₂.unplaced {}) {} := by
  refine hx.exists_assignment hv (hc.conditional h₁.toPlain h₂.toPlain) ?_
  rw [lexemes_conditional hc.closed h₁.closed h₂.closed]
  exact hc.spells.conditional h₁.spells h₂.spells

/-- An assignment to a variable does not start like an `if` or a `while`. -/
theorem not_opens (hx : PlainForms names x target) (hv : target.isVariable)
    (h : Plain (assignment x text)) (hk : word ∈ ["if", "while"]) :
    ¬ Opens word (trimLeft (assignment x text)) := by
  intro ho
  obtain ⟨lexeme, ls, hl, hf⟩ := exists_function_of_opens hk h.trimLeft.spaces ho
  rw [lexemes_trimLeft, lexemes_assignment hx.closed] at hl
  obtain ⟨t, us, ht, hne⟩ := hx.spells.derives.starts_of_isVariable
    ((Expr.isVariable_unplaced target).trans hv)
  obtain ⟨first, rest, hr, rfl, -⟩ := List.map_eq_cons_iff.1 ht
  rw [hr] at hl
  cases hl
  exact hne hf

theorem suits (h : PlainForms vars.names text e) : Suits vars text :=
  ⟨h.toPlain, by rw [h.parse_eq]⟩

theorem suits_assignment (hx : PlainForms vars.names x target) (hv : target.isVariable)
    (h : PlainForms vars.names (assignment x text) e) :
    (Block.equation (assignment x text) .done).Suits vars :=
  ⟨h.suits, hx.not_opens hv h.toPlain (by decide), hx.not_opens hv h.toPlain (by decide), trivial⟩

end PlainForms

theorem Suits.exists_plainForms {vars : Variables} (h : Suits vars text) :
    ∃ e, (Expr.parse text vars false).expr = some e ∧ PlainForms vars.names text e := by
  obtain ⟨e, hp, hf⟩ := h.exists_forms
  exact ⟨e, hp, h.plain, hf⟩

end Script

end FormulaScript
