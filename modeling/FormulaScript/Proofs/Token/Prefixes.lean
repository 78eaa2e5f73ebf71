import FormulaScript.Proofs.Text.Blank
import FormulaScript.Proofs.Token.Pauses

/-!
# Lexemes in front of a text

`Lexes source ls rest` says that reading comes through the lexemes `ls` of a source to the rest of
it. Where a lexeme ends depends on what follows it, but on no more than the next character, or on
there being an end or a comma: in front of rests that agree in this the same lexemes are read.
-/

namespace FormulaScript.Token

open Text

/-- From the source the reading comes through some lexemes to the rest. -/
inductive Lexes : List Char → List Lexeme → List Char → Prop
  | done (rest : List Char) : Lexes rest [] rest
  | blank : isBlank c → Lexes source ls rest → Lexes (c :: source) ls rest
  | lexeme : isBlank first = false →
      Lexes (source.drop (Lexeme.read first source).more) ls rest →
      Lexes (first :: source) (Lexeme.read first source :: ls) rest

/-- No lexeme that ends in front of one of the texts depends on which of them it is. -/
inductive Alike : List Char → List Char → Prop
  | same (rest rest' : List Char) : isBlank c = false → Alike (c :: rest) (c :: rest')
  | pause : Pauses b → Pauses b' → Alike b b'

/-- The lexeme is no string that runs to the end of the text. -/
def Lexeme.IsClosed (lexeme : Lexeme) : Prop := lexeme.problem ≠ some .unbalancedQuotes

/-- Every string of the text is closed. -/
def Closed (text : List Char) : Prop := ∀ lexeme ∈ lexemes text, lexeme.IsClosed

variable {a b b' source rest : List Char} {first : Char}

theorem isClosed_of_faultless {lexeme : Lexeme} (h : lexeme.problem = none) : lexeme.IsClosed := by
  rw [Lexeme.IsClosed, h]
  nofun

theorem closed_of_faultless (h : ∀ lexeme ∈ lexemes a, lexeme.problem = none) : Closed a :=
  fun lexeme hl => isClosed_of_faultless (h lexeme hl)

/-! ## One lexeme -/

theorem read_closed {text : List Char} (h : '"' ∉ text) (rest : List Char) :
    Lexeme.read '"' (text ++ '"' :: rest) = ⟨.string, text, text.length + 1, none⟩ := by
  have ht : (text ++ '"' :: rest).takeWhile (· ≠ '"') = text := by
    rw [List.takeWhile_append_of_pos fun c hc => by simpa using fun he : c = '"' => h (he ▸ hc),
      List.takeWhile_cons_of_neg (by simp), List.append_nil]
  unfold Lexeme.read
  rw [if_pos rfl, ht]
  dsimp only
  rw [if_pos (by simp)]

theorem read_unclosed {text : List Char} (h : '"' ∉ text) :
    Lexeme.read '"' text = ⟨.string, text, text.length, some .unbalancedQuotes⟩ := by
  have ht : text.takeWhile (· ≠ '"') = text :=
    List.takeWhile_eq_self_iff.2 fun c hc => by simpa using fun he : c = '"' => h (he ▸ hc)
  unfold Lexeme.read
  rw [if_pos rfl, ht]
  dsimp only
  rw [if_neg (Nat.lt_irrefl _)]

theorem kind_read_quote (rest : List Char) : (Lexeme.read '"' rest).kind = .string := by
  by_cases hq : '"' ∈ rest
  · obtain ⟨text, tail, rfl, ht⟩ := List.eq_append_cons_of_mem hq
    rw [read_closed ht]
  · rw [read_unclosed hq]

/-- Only a string is unclosed. -/
theorem isClosed_of_ne (h : first ≠ '"') (rest : List Char) :
    (Lexeme.read first rest).IsClosed := by
  unfold Lexeme.IsClosed
  refine Lexeme.read_cases first rest ?_ ?_ ?_ ?_ ?_ ?_ ?_ ?_
  · exact fun he => absurd he h
  · exact fun he => absurd he h
  · simp
  · simp
  · intro _ _ _ value? _
    cases value? <;> simp
  · simp
  · simp
  · simp

theorem kind_read_ne_string (h : first ≠ '"') (rest : List Char) :
    (Lexeme.read first rest).kind ≠ .string := by
  refine Lexeme.read_cases first rest ?_ ?_ ?_ ?_ ?_ ?_ ?_ ?_
  · exact fun he => absurd he h
  · exact fun he => absurd he h
  all_goals
    intros
    nofun

/-- A lexeme that is not closed takes all that is left. -/
theorem isClosed_or_eq (first : Char) (rest : List Char) :
    (Lexeme.read first rest).IsClosed ∨ first = '"' ∧
      Lexeme.read first rest = ⟨.string, rest, rest.length, some .unbalancedQuotes⟩ := by
  by_cases hf : first = '"'
  · subst hf
    by_cases hq : '"' ∈ rest
    · obtain ⟨text, tail, rfl, ht⟩ := List.eq_append_cons_of_mem hq
      rw [read_closed ht]
      exact .inl nofun
    · exact .inr ⟨rfl, read_unclosed hq⟩
  · exact .inl (isClosed_of_ne hf rest)

/-- A lexeme ends in front of both texts or goes on into both, unless it is a string: they start
with the same character, or none of them starts with one that goes on a lexeme. A name is a function
in front of both or of none. -/
structure Meets (b b' : List Char) : Prop where
  head : b'.head? = b.head? ∨ Paused b ∧ Paused b'
  opening : (b'.dropWhile isBlank).head? = some '(' ↔ (b.dropWhile isBlank).head? = some '('

theorem Pauses.meets (h : Pauses b) (h' : Pauses b') : Meets b b' where
  head := .inr ⟨h.head, h'.head⟩
  opening := iff_of_false (fun ho => h'.after '(' ho rfl) fun ho => h.after '(' ho rfl

theorem Alike.meets (h : Alike b b') : Meets b b' := by
  cases h with
  | same _ _ hc => exact ⟨.inl rfl, by simp [hc]⟩
  | pause h h' => exact h.meets h'

namespace Meets

theorem cases_head (h : Meets b b') (a : List Char) :
    (∃ c r r', a ++ b = c :: r ∧ a ++ b' = c :: r') ∨ (a = [] ∧ Paused b ∧ Paused b') := by
  cases a with
  | cons c a => exact .inl ⟨c, a ++ b, a ++ b', rfl, rfl⟩
  | nil =>
    rcases h.head with he | hp
    · cases b with
      | nil =>
        obtain rfl : b' = [] := List.head?_eq_none_iff.1 he
        exact .inr ⟨rfl, nofun, nofun⟩
      | cons c r =>
        obtain ⟨r', rfl⟩ := List.head?_eq_some_iff.1 he
        exact .inl ⟨c, r, r', rfl, rfl⟩
    · exact .inr ⟨rfl, hp⟩

theorem run (h : Meets b b') (hl : (Token.run (a ++ b)).length ≤ a.length) :
    Token.run (a ++ b') = Token.run (a ++ b) := by
  induction a with
  | nil =>
    rcases h.cases_head [] with ⟨c, r, r', hr, hr'⟩ | ⟨-, hp, hp'⟩
    · rw [hr] at hl
      rw [hr, hr']
      by_cases hd : isDelimiterChar c
      · simp [Token.run, hd]
      · simp [Token.run, hd] at hl
    · rw [List.nil_append, List.nil_append, run_of_pause hp, run_of_pause hp']
  | cons c a ih =>
    by_cases hd : isDelimiterChar c
    · simp [Token.run, hd]
    · simp only [Token.run, List.cons_append, hd, Bool.not_false, List.takeWhile_cons_of_pos,
        List.length_cons, Nat.add_le_add_iff_right] at hl ⊢
      exact congrArg _ (ih hl)

theorem signedRun (h : Meets b b') (previous : Char)
    (hl : (Token.signedRun previous (a ++ b)).length ≤ a.length) :
    Token.signedRun previous (a ++ b') = Token.signedRun previous (a ++ b) := by
  induction a generalizing previous with
  | nil =>
    rcases h.cases_head [] with ⟨c, r, r', hr, hr'⟩ | ⟨-, hp, hp'⟩
    · rw [hr] at hl
      rw [hr, hr']
      simp only [Token.signedRun] at hl ⊢
      split at hl
      · next hd => rw [if_pos hd, if_pos hd]
      · cases hl
    · rw [List.nil_append, List.nil_append, signedRun_of_pause hp, signedRun_of_pause hp']
  | cons c a ih =>
    simp only [List.cons_append, Token.signedRun] at hl ⊢
    split at hl
    · next hd => rw [if_pos hd, if_pos hd]
    · next hd =>
      rw [if_neg hd, if_neg hd, ih c (by simpa using hl)]

theorem startsNumber (h : Meets b b') (first : Char) (a : List Char) :
    Token.startsNumber first (a ++ b') = Token.startsNumber first (a ++ b) := by
  rcases h.cases_head a with ⟨c, r, r', hr, hr'⟩ | ⟨rfl, hp, hp'⟩
  · rw [hr, hr']
    rfl
  · rw [List.nil_append, List.nil_append, startsNumber_of_pause hp, startsNumber_of_pause hp']

theorem numberRun (h : Meets b b') (first : Char)
    (hl : (Token.numberRun first (a ++ b)).length - 1 ≤ a.length) :
    Token.numberRun first (a ++ b') = Token.numberRun first (a ++ b) := by
  have hr : (a ++ b').head?.bind Number.radix? = (a ++ b).head?.bind Number.radix? := by
    rcases h.cases_head a with ⟨c, r, r', hr, hr'⟩ | ⟨rfl, hp, hp'⟩
    · rw [hr, hr']
      rfl
    · rw [List.nil_append, List.nil_append, radix?_of_pause hp, radix?_of_pause hp']
  unfold Token.numberRun at hl ⊢
  rw [hr]
  dsimp only at hl ⊢
  split
  · next hx =>
    rw [if_pos hx] at hl
    rw [h.run (by simpa using hl)]
  · next hx =>
    rw [if_neg hx] at hl
    rw [h.signedRun first (by simpa using hl)]

theorem head?_dropWhile (h : Meets b b') (a : List Char) :
    ((a ++ b').dropWhile isBlank).head? = some '(' ↔
      ((a ++ b).dropWhile isBlank).head? = some '(' := by
  induction a with
  | nil => exact h.opening
  | cons c a ih =>
    by_cases hc : isBlank c
    · simpa [hc] using ih
    · simp [hc]

theorem read_delimiter (h : Meets b b') (hq : first ≠ '"') (hd : isDelimiterChar first)
    (a : List Char) : Lexeme.read first (a ++ b') = Lexeme.read first (a ++ b) := by
  rcases h.cases_head a with ⟨c, r, r', hr, hr'⟩ | ⟨rfl, hp, hp'⟩
  · rw [hr, hr']
    simp [Lexeme.read, hq, hd]
  · exact (read_of_pause hq hd hp').trans (read_of_pause hq hd hp).symm

/-- A lexeme that ends in front of one of the texts is the same in front of the other. -/
theorem read (h : Meets b b') (hm : (Lexeme.read first (a ++ b)).more ≤ a.length)
    (hc : (Lexeme.read first (a ++ b)).IsClosed) :
    Lexeme.read first (a ++ b') = Lexeme.read first (a ++ b) := by
  by_cases hq : first = '"'
  · subst hq
    by_cases ha : '"' ∈ a
    · obtain ⟨text, a, rfl, ht⟩ := List.eq_append_cons_of_mem ha
      simp only [List.append_assoc, List.cons_append, read_closed ht]
    · exfalso
      by_cases hb : '"' ∈ b
      · obtain ⟨text, b, rfl, ht⟩ := List.eq_append_cons_of_mem hb
        rw [← List.append_assoc, read_closed (by simp [ha, ht])] at hm
        simp only [List.length_append] at hm
        omega
      · rw [read_unclosed (by simp [ha, hb])] at hc
        exact hc rfl
  · by_cases hd : isDelimiterChar first
    · exact h.read_delimiter hq hd a
    · unfold Lexeme.read at hm ⊢
      simp only [if_neg hq, if_neg hd, h.startsNumber first a] at hm ⊢
      split
      · next hn =>
        rw [if_pos hn] at hm
        rw [h.numberRun first hm]
      · next hn =>
        rw [if_neg hn] at hm
        have hl : (Token.run (a ++ b)).length ≤ a.length := by
          split at hm <;> simpa using hm
        simp only [h.run hl, List.length_cons, Nat.add_sub_cancel]
        rw [List.drop_append_of_le_length hl, List.drop_append_of_le_length hl]
        simp only [h.head?_dropWhile]

end Meets

/-! ## All lexemes -/

namespace Lexes

theorem suffix (h : Lexes source ls rest) : rest <:+ source := by
  induction h with
  | done => exact List.suffix_rfl
  | blank _ _ ih => exact ih.trans (List.suffix_cons _ _)
  | lexeme _ _ ih => exact ih.trans ((List.drop_suffix _ _).trans (List.suffix_cons _ _))

/-- The lexemes of a source are those in front of the rest and those of the rest. -/
theorem lexemes_eq (h : Lexes source ls rest) : lexemes source = ls ++ lexemes rest := by
  induction h with
  | done => rfl
  | @blank c source _ _ hc _ ih =>
    rw [← ih]
    exact lexemes_cons_of_blank hc source
  | lexeme hc _ ih =>
    rw [lexemes_eq_cons (List.dropWhile_cons_of_neg (by simp [hc])), ih]
    rfl

/-- In front of another text that ends lexemes alike, the same lexemes are read. -/
theorem replace (h : Lexes (a ++ b) ls b) (hb : Alike b b') (hc : ∀ lexeme ∈ ls, lexeme.IsClosed) :
    Lexes (a ++ b') ls b' := by
  generalize hs : a ++ b = source at h
  generalize hr : b = rest at h
  induction h generalizing a with
  | done rest =>
    subst hr
    cases List.append_left_eq_self.1 hs
    exact .done b'
  | @blank c source ls rest hblank h ih =>
    subst hr
    cases a with
    | nil =>
      cases hs
      exact absurd h.suffix.length_le (by simp)
    | cons d a =>
      obtain ⟨rfl, rfl⟩ := List.cons.inj hs
      exact .blank hblank (ih hc rfl rfl)
  | @lexeme first source _ _ hblank h ih =>
    subst hr
    cases a with
    | nil =>
      cases hs
      have hl := h.suffix.length_le
      rw [List.length_drop, List.length_cons] at hl
      omega
    | cons d a =>
      rw [List.cons_append] at hs
      obtain ⟨rfl, rfl⟩ := List.cons.inj hs
      obtain ⟨hfirst, hc⟩ := List.forall_mem_cons.1 hc
      -- the rest is still to come, so the lexeme ends in front of it
      have hm : (Lexeme.read d (a ++ b)).more ≤ a.length := by
        have hl := h.suffix.length_le
        have hle := Lexeme.more_read_le d (a ++ b)
        simp only [List.length_drop, List.length_append] at hl hle
        omega
      have hread := hb.meets.read hm hfirst
      have hd (b : List Char) : (a ++ b).drop (Lexeme.read d (a ++ b')).more =
          a.drop (Lexeme.read d (a ++ b')).more ++ b :=
        List.drop_append_of_le_length (hread ▸ hm)
      rw [List.cons_append, ← hread]
      refine .lexeme hblank ?_
      rw [hd]
      exact ih hc (by rw [← hd b, hread]) rfl

theorem blanks {blanks : List Char} (hb : ∀ c ∈ blanks, isBlank c) (h : Lexes source ls rest) :
    Lexes (blanks ++ source) ls rest := by
  induction blanks with
  | nil => exact h
  | cons c blanks ih =>
    obtain ⟨hc, hb⟩ := List.forall_mem_cons.1 hb
    exact .blank hc (ih hb)

end Lexes

theorem lexes_all (source : List Char) : Lexes source (lexemes source) [] := by
  fun_induction lexemes source with
  | case1 source h =>
    obtain ⟨blanks, hb, hs⟩ := exists_trimLeft source
    rw [trimLeft, h] at hs
    exact hs ▸ (Lexes.done []).blanks hb
  | case2 source first rest h ih =>
    obtain ⟨blanks, hb, hs⟩ := exists_trimLeft source
    have hf : isBlank first = false := isBlank_of_trimLeft h
    rw [trimLeft, h] at hs
    exact hs ▸ (Lexes.lexeme hf ih).blanks hb

theorem Lexes.isClosed_of_not_mem (h : Lexes source ls rest) (hq : '"' ∉ source) :
    ∀ lexeme ∈ ls, lexeme.IsClosed := by
  induction h with
  | done => exact List.forall_mem_nil _
  | blank _ _ ih => exact ih fun hm => hq (List.mem_cons_of_mem _ hm)
  | @lexeme first ls rest source _ _ ih =>
    obtain ⟨hf, hq⟩ := not_or.1 (mt List.mem_cons.2 hq)
    exact List.forall_mem_cons.2
      ⟨isClosed_of_ne (Ne.symm hf) source, ih fun hm => hq (List.mem_of_mem_drop hm)⟩

/-- A text without quotes has no string that is not closed. -/
theorem closed_of_not_mem {text : List Char} (hq : '"' ∉ text) : Closed text :=
  (lexes_all text).isClosed_of_not_mem hq

/-! ## A text after another -/

/-- The lexeme of an operator of one character. -/
def Lexeme.symbol (c : Char) : Lexeme := ⟨.delimiter, [c], 0, none⟩

theorem Lexeme.read_symbol {c : Char} (hd : isDelimiterChar c)
    (ho : ∀ symbols ∈ twoCharOperators, symbols.1 ≠ c) (rest : List Char) :
    Lexeme.read c rest = .symbol c := by
  have hq : c ≠ '"' := by
    rintro rfl
    exact absurd hd (by decide)
  have ho (second : Char) : ¬ twoCharOperators.contains (c, second) :=
    fun h => ho _ (List.contains_iff_mem.1 h) rfl
  refine Lexeme.read_cases c rest ?_ ?_ ?_ (fun _ _ _ => rfl) ?_ ?_ ?_ ?_
  · exact fun h => absurd h hq
  · exact fun h => absurd h hq
  · exact fun _ _ second _ _ h => absurd h (ho second)
  all_goals exact fun _ h => absurd hd h

theorem lexemes_cons_symbol {c : Char} (hd : isDelimiterChar c) (hb : isBlank c = false)
    (ho : ∀ symbols ∈ twoCharOperators, symbols.1 ≠ c) (rest : List Char) :
    lexemes (c :: rest) = .symbol c :: lexemes rest := by
  rw [lexemes_eq_cons (List.dropWhile_cons_of_neg (by simp [hb])), Lexeme.read_symbol hd ho]
  rfl

theorem lexemes_cons_comma (rest : List Char) :
    lexemes (',' :: rest) = .symbol ',' :: lexemes rest :=
  lexemes_cons_symbol (by decide) (by decide) (by decide) rest

theorem lexemes_closing : lexemes [')'] = [.symbol ')'] := by
  rw [lexemes_cons_symbol (by decide) (by decide) (by decide), lexemes_eq_nil rfl]

theorem alike_symbol {c : Char} (hc : c = ',' ∨ c = ')') (rest : List Char) :
    Alike [] (c :: rest) := by
  have hb : isBlank c = false := by rcases hc with rfl | rfl <;> decide
  refine .pause ⟨nofun, nofun⟩ ⟨?_, ?_⟩
  · rintro _ ⟨⟩
    rcases hc with rfl | rfl <;> decide
  · rw [List.dropWhile_cons_of_neg (by simp [hb])]
    rintro _ ⟨⟩ rfl
    exact absurd hc (by decide)

theorem alike_comma (rest : List Char) : Alike [] (',' :: rest) :=
  alike_symbol (.inl rfl) rest

/-- After a space no lexeme goes on, and a name there is a function if a parenthesis is next. -/
theorem alike_space {x c : Char} (hx : isSpace x) (hb : isBlank c = false) (hc : c ≠ '(')
    (rest : List Char) : Alike [] (x :: c :: rest) := by
  refine .pause ⟨nofun, nofun⟩ ⟨paused_cons hx, ?_⟩
  rw [List.dropWhile_cons_of_pos (isBlank_of_isSpace hx),
    List.dropWhile_cons_of_neg (by simp [hb])]
  rintro _ ⟨⟩
  exact hc

/-- The strings of a text are closed if they are with more after it, in which none ends. -/
theorem Closed.left (h : Closed (a ++ rest)) (hr : Alike [] rest) (hq : '"' ∉ rest) : Closed a := by
  unfold Closed at h ⊢
  have hall := lexes_all a
  generalize lexemes a = ls at hall ⊢
  generalize hn : [] = none at hall
  induction hall with
  | done => simp
  | @blank c source _ _ hc _ ih =>
    have hs : lexemes (c :: source ++ rest) = lexemes (source ++ rest) :=
      lexemes_cons_of_blank hc (source ++ rest)
    exact ih (hs ▸ h) hn
  | @lexeme first _ _ source hb _ ih =>
    have hs : lexemes (first :: source ++ rest) = Lexeme.read first (source ++ rest) ::
        lexemes ((source ++ rest).drop (Lexeme.read first (source ++ rest)).more) :=
      lexemes_eq_cons (List.dropWhile_cons_of_neg (by simp [hb]))
    rw [hs] at h
    obtain ⟨hfirst, h⟩ := List.forall_mem_cons.1 h
    have hclosed : (Lexeme.read first source).IsClosed := by
      by_cases hf : first = '"'
      · subst hf
        by_cases hm : '"' ∈ source
        · obtain ⟨text, tail, rfl, ht⟩ := List.eq_append_cons_of_mem hm
          rw [read_closed ht]
          nofun
        · rw [read_unclosed (by simp [hm, hq])] at hfirst
          exact absurd rfl hfirst
      · exact isClosed_of_ne hf source
    have hm := Lexeme.more_read_le first source
    have hread : Lexeme.read first (source ++ rest) = Lexeme.read first source := by
      have hr : Lexeme.read first (source ++ rest) = Lexeme.read first (source ++ []) :=
        hr.meets.read (by rwa [List.append_nil]) (by rwa [List.append_nil])
      rwa [List.append_nil] at hr
    rw [hread, List.drop_append_of_le_length hm] at h
    exact List.forall_mem_cons.2 ⟨hclosed, ih h hn⟩

/-- The lexemes of a text with closed strings do not depend on what follows it, where that goes on
no lexeme and makes no function of a name. -/
theorem Closed.lexemes_append (hc : Closed a) (hb : Alike [] b) :
    lexemes (a ++ b) = lexemes a ++ lexemes b := by
  have h := lexes_all a
  rw [← List.append_nil a] at h
  have h := h.replace hb (by rwa [List.append_nil])
  rw [h.lexemes_eq, List.append_nil]

theorem Closed.lexemes_append_comma (hc : Closed a) (rest : List Char) :
    lexemes (a ++ ',' :: rest) = lexemes a ++ .symbol ',' :: lexemes rest := by
  rw [hc.lexemes_append (alike_comma rest), lexemes_cons_comma]

end FormulaScript.Token
