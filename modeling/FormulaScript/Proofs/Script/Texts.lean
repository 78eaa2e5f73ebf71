import FormulaScript.Proofs.Expr.Parentheses
import FormulaScript.Proofs.Expr.Places
import FormulaScript.Proofs.Script.Tests
import FormulaScript.Proofs.Script.Units
import FormulaScript.Proofs.Token.Respacing

/-!
# The texts of units

Cutting a script into units and joining them again collapses the blanks of a text. Its lexemes stay,
so it still is the expression that it was; and it is not taken for a keyword.
-/

namespace FormulaScript.Script

open Text Token

variable {text : List Char}

/-! ## Blanks -/

theorem Plain.spaces (h : Plain text) : ∀ c ∈ text, isBlank c → isSpace c :=
  fun c hc hb => isSpace_iff.2 (h.blanks c hc hb)

theorem Plain.not_mem_quote (h : Plain text) : '"' ∉ text :=
  fun hq => h.symbols _ hq (by decide)

theorem Plain.not_mem_nul (h : Plain text) : '\x00' ∉ text :=
  fun hn => h.symbols _ hn (by decide)

theorem mem_of_mem_squeeze (h : c ∈ squeeze skip text) (hc : c ≠ ' ') : c ∈ text := by
  induction text generalizing skip with
  | nil => exact h
  | cons d text ih =>
    rw [squeeze] at h
    split at h
    · rcases List.mem_append.1 h with h | h
      · cases skip <;> simp_all
      · exact List.mem_cons_of_mem _ (ih h)
    · rcases List.mem_cons.1 h with rfl | h
      · exact List.mem_cons_self
      · exact List.mem_cons_of_mem _ (ih h)

theorem squeeze_skip (text : List Char) :
    squeeze true text = squeeze false (text.dropWhile isSpace) := by
  induction text with
  | nil => rfl
  | cons c text ih =>
    by_cases hs : c = ' ' ∨ c = '\t'
    · rw [squeeze, if_pos hs, List.dropWhile_cons_of_pos (isSpace_iff.2 hs), ← ih]
      rfl
    · rw [squeeze, if_neg hs, List.dropWhile_cons_of_neg fun h => hs (isSpace_iff.1 h), squeeze,
        if_neg hs]

theorem collapsed_squeeze (h : ∀ c ∈ text, isBlank c → isSpace c) :
    Collapsed text (squeeze false text) := by
  -- a run of blanks is taken at once, so the text gets shorter by more than a character
  induction hn : text.length using Nat.strongRecOn generalizing text with
  | ind n ih =>
    cases text with
    | nil => exact .stop ⟨by simp, by simp [squeeze]⟩
    | cons c text =>
      obtain ⟨hc, h⟩ := List.forall_mem_cons.1 h
      by_cases hs : c = ' ' ∨ c = '\t'
      · have hsuffix := List.dropWhile_suffix isSpace (l := text)
        have ih := ih (text.dropWhile isSpace).length
          (by have := hsuffix.length_le; rw [List.length_cons] at hn; omega)
          (fun d hd => h d (hsuffix.subset hd)) rfl
        have hgap : ∀ d ∈ text.takeWhile isSpace, isSpace d := fun d hd => by
          simpa using List.all_eq_true.1 List.all_takeWhile d hd
        have hcol := Respaced.gap (isSpace_iff.2 hs) hgap (isSpace_iff.2 (.inl rfl))
          (List.forall_mem_nil _) ih
        rw [List.takeWhile_append_dropWhile] at hcol
        rw [squeeze, if_pos hs, squeeze_skip]
        exact hcol
      · have hb : isBlank c = false := Bool.eq_false_iff.2 fun hb => hs (isSpace_iff.1 (hc hb))
        rw [squeeze, if_neg hs]
        exact .char hb (ih text.length (by rw [← hn, List.length_cons]; omega) h rfl)

theorem lexemes_trimLeft (text : List Char) : lexemes (trimLeft text) = lexemes text := by
  obtain ⟨blanks, hb, ht⟩ := exists_trimLeft text
  rw [← lexemes_append_of_blank hb, ← ht]

theorem lexemes_trim (h : ∀ c ∈ text, isBlank c → isSpace c) (hq : '"' ∉ text) :
    lexemes (trim text) = lexemes text := by
  obtain ⟨before, after, hb, ha, ht⟩ := exists_trim text
  rw [List.append_assoc] at ht
  have hsub : trim text ++ after ⊆ text := fun c hc => by
    rw [ht]
    exact List.mem_append_right _ hc
  have hc : Collapsed (trim text ++ after) (trim text ++ []) :=
    .append (fun c hc => h c (hsub (List.mem_append_left _ hc))) <|
      .stop ⟨fun c hc => h c (hsub (List.mem_append_right _ hc)) (ha c hc), by simp⟩
  have hl := lexemes_of_collapsed hc fun hm => hq (hsub hm)
  rw [List.append_nil] at hl
  rw [hl, ← lexemes_append_of_blank hb, ← ht]

/-- A text as it is joined again from its unit. -/
def tidy (text : List Char) : List Char := trim (squeeze false text)

theorem not_mem_squeeze (h : c ∉ text) (hc : c ≠ ' ') : c ∉ squeeze skip text :=
  fun hm => h (mem_of_mem_squeeze hm hc)

theorem Plain.spaces_squeeze (h : Plain text) :
    ∀ c ∈ squeeze false text, isBlank c → isSpace c := by
  intro c hm hb
  by_cases hc : c = ' '
  · exact isSpace_iff.2 (.inl hc)
  · exact h.spaces c (mem_of_mem_squeeze hm hc) hb

theorem Plain.lexemes_tidy (h : Plain text) : lexemes (tidy text) = lexemes text := by
  have hq : '"' ∉ squeeze false text := not_mem_squeeze h.not_mem_quote (by decide)
  rw [tidy, lexemes_trim h.spaces_squeeze hq,
    lexemes_of_collapsed (collapsed_squeeze h.spaces) h.not_mem_quote]

theorem not_mem_tidy (h : c ∉ text) (hc : c ≠ ' ') : c ∉ tidy text :=
  fun hm => not_mem_squeeze h hc (mem_of_mem_trim hm)

/-! ## Expressions -/

theorem Plain.trimLeft (h : Plain text) : Plain (Text.trimLeft text) :=
  h.suffix (List.dropWhile_suffix _)

/-- A statement that is joined again from its unit is the expression that it was. -/
theorem Plain.forms_statement (h : Plain text) (he : Expr.Forms names text e) :
    ∃ e', Expr.Forms names (tidy (Text.trimLeft text)) e' ∧ e'.Moved e :=
  he.exists_moved h.not_mem_nul (not_mem_tidy h.trimLeft.not_mem_nul (by decide))
    (h.trimLeft.lexemes_tidy.trans (lexemes_trimLeft text))

theorem Plain.forms_test (h : Plain text) (he : Expr.Forms names text e) :
    ∃ test test', Expr.Forms names (wrapped text) test ∧
      Expr.Forms names (wrapped (tidy text)) test' ∧ test'.Moved test := by
  obtain ⟨test, ht⟩ := exists_test h.not_mem_nul he
  have hc : Closed text := closed_of_scan h.not_mem_nul he.faultless
  have hl : lexemes (wrapped (tidy text)) = lexemes (wrapped text) := by
    have ht : Closed (tidy text) := by rwa [Closed, h.lexemes_tidy]
    rw [lexemes_wrapped ht, lexemes_wrapped hc, h.lexemes_tidy]
  obtain ⟨test', ht', hs⟩ := ht.exists_moved (not_mem_wrapped h.not_mem_nul)
    (not_mem_wrapped (not_mem_tidy h.not_mem_nul (by decide))) hl
  exact ⟨test, test', ht, ht', hs⟩

/-- An expression has a lexeme, so something is left of a text that has its lexemes. -/
theorem ne_nil_of_lexemes {part : List Char} (hn : '\x00' ∉ text) (he : Expr.Forms names text e)
    (hl : lexemes part = lexemes text) : part ≠ [] := by
  rintro rfl
  have hs := shapes_scan hn
  rw [← hl, lexemes_eq_nil rfl] at hs
  exact he.derives.ne_nil (List.map_eq_nil_iff.1 hs)

theorem filter_squeeze (skip : Bool) (text : List Char) :
    (squeeze skip text).filter isParenthesis = text.filter isParenthesis := by
  induction text generalizing skip with
  | nil => rfl
  | cons c text ih =>
    rw [squeeze]
    split
    · next hs =>
      have hc : isParenthesis c = false := by rcases hs with rfl | rfl <;> decide
      have hb : (if skip then [] else [' ']).filter isParenthesis = [] := by cases skip <;> decide
      rw [List.filter_append, hb, ih, List.filter_cons_of_neg (by simp [hc])]
      rfl
    · rw [List.filter_cons, List.filter_cons, ih]

theorem Plain.balanced_squeeze (h : Plain text) (he : Expr.Forms names text e) :
    Balanced (squeeze false text) := fun level => by
  rw [← openAfter_filter, filter_squeeze, openAfter_filter]
  exact he.balanced h.not_mem_quote h.not_mem_nul level

/-! ## Keywords -/

theorem exists_of_collapsed {a b : List Char} (h : Collapsed a (word ++ b))
    (hw : ∀ c ∈ word, isBlank c = false) : ∃ a', a = word ++ a' ∧ Collapsed a' b := by
  induction word generalizing a with
  | nil => exact ⟨a, rfl, h⟩
  | cons c word ih =>
    obtain ⟨hc, hw⟩ := List.forall_mem_cons.1 hw
    have hne : ¬ isSpace c := fun hs => by
      rw [isBlank_of_isSpace hs] at hc
      cases hc
    rw [List.cons_append] at h
    generalize ht : word ++ b = tail at h
    cases h with
    | stop h => exact absurd (h.2 c List.mem_cons_self) hne
    | gap _ _ hs => exact absurd hs hne
    | char _ h =>
      subst ht
      obtain ⟨a', rfl, h'⟩ := ih h hw
      exact ⟨a', rfl, h'⟩

theorem exists_of_isPrefixOf {word : List Char} (h : word.isPrefixOf (text ++ [';']))
    (hw : ';' ∉ word) : ∃ more, text = word ++ more := by
  rcases List.prefix_concat_iff.1 (List.isPrefixOf_iff_prefix.1 h) with rfl | ⟨more, hm⟩
  · exact absurd (List.mem_append_right _ List.mem_cons_self) hw
  · exact ⟨more, hm.symm⟩

theorem trim_statement (text : List Char) : trim (text ++ [';']) = trimLeft text ++ [';'] := by
  rw [trim, trimLeft_append (by decide), trimRight_append (by decide)]

theorem header_characters (hk : word ∈ ["if", "while"]) :
    ∀ c ∈ word.toList, isBlank c = false ∧ c ≠ ';' := by
  have hall : ∀ word ∈ ["if", "while"],
      word.toList.all fun c => isBlank c = false ∧ c ≠ ';' := by
    decide
  exact fun c hc => of_decide_eq_true (List.all_eq_true.1 (hall word hk) c hc)

/-- A unit with a semicolon behind is no header unless a parenthesis follows its keyword. -/
theorem afterKeyword_of_not_opens (hk : word ∈ ["if", "while"]) (ho : ¬ Opens word text) :
    afterKeyword word (text ++ [';']) = none := by
  unfold afterKeyword
  split
  · next hp =>
    obtain ⟨more, rfl⟩ := exists_of_isPrefixOf hp fun hc =>
      (header_characters hk _ hc).2 rfl
    rw [List.append_assoc, drop_word, trim_statement]
    refine if_neg fun hopen => ho (opens_iff.2 ⟨List.isPrefixOf_iff_prefix.2 ⟨more, rfl⟩, ?_⟩)
    rw [drop_word]
    cases hl : Text.trimLeft more with
    | nil => simp [hl] at hopen
    | cons c left => simpa [hl] using hopen
  · rfl

theorem afterKeyword_statement (hk : word ∈ ["if", "while"]) (h : Plain text)
    (ho : ¬ Opens word (trimLeft text)) :
    afterKeyword word (squeeze false (trimLeft text) ++ [';']) = none := by
  refine afterKeyword_of_not_opens hk fun hopens => ho ?_
  obtain ⟨hp, hmore⟩ := opens_iff.1 hopens
  obtain ⟨more, hm⟩ := List.isPrefixOf_iff_prefix.1 hp
  rw [← hm, drop_word] at hmore
  -- a parenthesis behind the keyword in the unit is behind it in the text too
  obtain ⟨rest, hr, hcol⟩ := exists_of_collapsed (hm ▸ collapsed_squeeze h.trimLeft.spaces)
    fun c hc => (header_characters hk c hc).1
  rw [hr, opens_iff, drop_word]
  exact ⟨List.isPrefixOf_iff_prefix.2 (List.prefix_append _ _),
    (meets_of_collapsed hcol).opening.1 hmore⟩

/-- The name in front of blanks and an opening parenthesis is a function. -/
theorem kind_read_function {first : Char} {word blanks rest : List Char} (hl : isLetter first)
    (hd : isDelimiterChar first = false) (hn : ∀ rest, startsNumber first rest = false)
    (hq : first ≠ '"') (hw : word.all (!isDelimiterChar ·))
    (hb : ∀ c ∈ blanks, isSpace c) :
    (Lexeme.read first (word ++ (blanks ++ '(' :: rest))).kind = .function := by
  have hr : run (word ++ (blanks ++ '(' :: rest)) = word := by
    refine run_append hw ?_
    cases blanks with
    | nil =>
      rintro c ⟨⟩
      decide
    | cons b blanks =>
      rintro c ⟨⟩
      exact isDelimiterChar_of_pause (mem_pauses_of_isSpace (hb _ List.mem_cons_self))
  have ho : ((blanks ++ '(' :: rest).dropWhile isBlank).head? = some '(' := by
    rw [List.dropWhile_append_of_pos fun c hc => isBlank_of_isSpace (hb c hc),
      List.dropWhile_cons_of_neg (by decide)]
    rfl
  simp [Lexeme.read, hq, hd, hn, hl, hr, ho]

/-- A text that starts like an `if` or a `while` starts with a function. -/
theorem exists_function_of_opens (hk : word ∈ ["if", "while"]) {text : List Char}
    (hs : ∀ c ∈ text, isBlank c → isSpace c) (h : Opens word text) :
    ∃ lexeme ls, lexemes text = lexeme :: ls ∧ lexeme.kind = .function := by
  obtain ⟨blanks, rest, hb, rfl⟩ := h
  have hb : ∀ c ∈ blanks, isSpace c := fun c hc =>
    hs c (List.mem_append_left _ (List.mem_append_right _ hc)) (hb c hc)
  rw [List.append_assoc]
  simp only [List.mem_cons, List.not_mem_nil, or_false] at hk
  rcases hk with rfl | rfl
  · have hd : ("if".toList ++ (blanks ++ '(' :: rest)).dropWhile isBlank =
      'i' :: (['f'] ++ (blanks ++ '(' :: rest)) := rfl
    exact ⟨_, _, lexemes_eq_cons hd, kind_read_function (by decide +kernel) (by decide)
      (fun _ => rfl) (by decide) (by decide) hb⟩
  · have hd : ("while".toList ++ (blanks ++ '(' :: rest)).dropWhile isBlank =
      'w' :: (['h', 'i', 'l', 'e'] ++ (blanks ++ '(' :: rest)) := rfl
    exact ⟨_, _, lexemes_eq_cons hd, kind_read_function (by decide +kernel) (by decide)
      (fun _ => rfl) (by decide) (by decide) hb⟩

theorem kind_read_i (rest : List Char) : (Lexeme.read 'i' rest).kind ≠ .delimiter := by
  refine Lexeme.read_cases 'i' rest ?_ ?_ ?_ ?_ ?_ ?_ ?_ ?_
  · simp
  · simp
  · exact fun _ h => absurd h (by decide)
  · exact fun _ h => absurd h (by decide)
  all_goals simp

/-- The name before a blank and the start of another one. -/
theorem read_else {rest : List Char} (hd : isDelimiterChar b)
    (hi : (trimLeft (b :: rest)).head? = some 'i') :
    Lexeme.read 'e' ('l' :: 's' :: 'e' :: b :: rest) = ⟨.name, "else".toList, 3, none⟩ := by
  have hrun : run (['l', 's', 'e'] ++ b :: rest) = ['l', 's', 'e'] :=
    run_append (by decide) (by simpa using hd)
  simp only [List.cons_append, List.nil_append] at hrun
  have hn : startsNumber 'e' ('l' :: 's' :: 'e' :: b :: rest) = false := rfl
  refine Lexeme.read_cases 'e' _ ?_ ?_ ?_ ?_ ?_ ?_ ?_ ?_
  · exact fun h => absurd h (by decide)
  · exact fun h => absurd h (by decide)
  · exact fun _ h => absurd h (by decide)
  · exact fun _ h => absurd h (by decide)
  · intro _ _ h
    rw [hn] at h
    cases h
  · intro _ _ _ _ _
    rw [hrun]
    rfl
  · intro _ _ _ _ ho
    rw [hrun] at ho
    exact absurd (hi.symm.trans ho) (by decide)
  · exact fun _ _ _ h => absurd (by decide) h

/-- The name `else` before a blank and the start of a name is no expression. -/
theorem not_forms_else {more left : List Char} (hs : ∀ c ∈ more, isBlank c → isSpace c)
    (hlt : (trimLeft more).length < more.length) (hl : trimLeft more = 'i' :: left)
    (hx : lexemes ("else".toList ++ more) = lexemes text) (hn : '\x00' ∉ text) :
    ¬ Expr.Forms names text e := by
  intro he
  cases more with
  | nil => cases hl
  | cons b more =>
    have hb : isBlank b := by
      by_contra hb
      rw [trimLeft_cons (by simpa using hb)] at hlt
      exact Nat.lt_irrefl _ hlt
    -- the first two tokens are the name `else` and something that starts with a letter
    have hd : isDelimiterChar b :=
      isDelimiterChar_of_pause (mem_pauses_of_isSpace (hs b List.mem_cons_self hb))
    have hread := read_else hd (hl ▸ rfl : (trimLeft (b :: more)).head? = some 'i')
    have hfirst : ("else".toList ++ b :: more).dropWhile isBlank =
        'e' :: 'l' :: 's' :: 'e' :: b :: more := rfl
    have hshapes := shapes_scan hn
    rw [← hx, lexemes_eq_cons hfirst, hread] at hshapes
    have hsecond : lexemes (b :: more) = Lexeme.read 'i' left ::
        lexemes (left.drop (Lexeme.read 'i' left).more) := lexemes_eq_cons hl
    have hrest : List.drop 3 ('l' :: 's' :: 'e' :: b :: more) = b :: more := rfl
    rw [hrest, hsecond] at hshapes
    obtain ⟨t, ts, hts, ht, hu⟩ := List.map_eq_cons_iff.1 hshapes
    obtain ⟨u, us, rfl, hu, -⟩ := List.map_eq_cons_iff.1 hu
    have hk := he.derives.second t u us hts (congrArg Prod.fst ht)
    exact kind_read_i left ((congrArg Prod.fst hu).symm.trans hk)

theorem afterElseIf_statement (h : Plain text) (he : Expr.Forms names text e) :
    afterElseIf (squeeze false (trimLeft text) ++ [';']) = none := by
  have hp := h.trimLeft
  unfold afterElseIf
  split
  · next hk =>
    obtain ⟨more, hm⟩ := exists_of_isPrefixOf hk (by decide)
    have hd : (squeeze false (trimLeft text) ++ [';']).drop "else".length = more ++ [';'] := by
      rw [hm]
      rfl
    rw [hd]
    dsimp only
    rw [trimLeft_append (by decide)]
    refine if_neg fun hc => ?_
    simp only [Bool.and_eq_true, decide_eq_true_eq, List.length_append, Nat.add_lt_add_iff_right]
      at hc
    obtain ⟨⟨hlt, hi⟩, -⟩ := hc
    obtain ⟨left, hl⟩ := exists_of_isPrefixOf hi (by decide)
    have hx : lexemes ("else".toList ++ more) = lexemes text := by
      rw [← hm, lexemes_of_collapsed (collapsed_squeeze hp.spaces) hp.not_mem_quote,
        lexemes_trimLeft]
    have hs : ∀ c ∈ more, isBlank c → isSpace c := fun c hc =>
      hp.spaces_squeeze c (hm ▸ List.mem_append_right _ hc)
    exact not_forms_else hs hlt hl hx h.not_mem_nul he
  · rfl

end FormulaScript.Script
