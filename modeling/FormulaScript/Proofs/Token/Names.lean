import FormulaScript.Proofs.Token.Literals
import Mathlib.Algebra.Ring.Parity

/-!
# Where names stand

A name among the tokens of a text is a run of its characters without a delimiter. If all quotes of
the text are those of its strings, an even number of them comes before the name.
-/

namespace FormulaScript.Token

open Text

/-- The text of a name: it starts with a letter and has no delimiter. -/
structure IsName (text : List Char) : Prop where
  letter : ∃ c ∈ text.head?, isLetter c
  run : ∀ c ∈ text, isDelimiterChar c = false

theorem IsName.ne_nil {text : List Char} (h : IsName text) : text ≠ [] := by
  rintro rfl
  obtain ⟨c, hc, -⟩ := h.letter
  cases hc

theorem IsName.not_mem_space {text : List Char} (h : IsName text) : ' ' ∉ text := fun hm =>
  absurd (h.run ' ' hm) (by decide)

/-- The characters that a lexeme covers, if it is closed. -/
def Lexeme.source (lexeme : Lexeme) : List Char :=
  match lexeme.kind with
  | .string => '"' :: lexeme.text ++ ['"']
  | _ => lexeme.text

theorem Lexeme.source_of_ne {lexeme : Lexeme} (h : lexeme.kind ≠ .string) :
    lexeme.source = lexeme.text := by
  unfold source
  split
  · next hk => exact absurd hk h
  · rfl

variable {source rest : List Char} {first : Char}

theorem cons_take_of_prefix {text : List Char} (h : text <+: rest) :
    first :: rest.take ((first :: text).length - 1) = first :: text := by
  rw [List.length_cons, Nat.add_sub_cancel, ← List.prefix_iff_eq_take.1 h]

theorem cons_take_numberRun (first : Char) (rest : List Char) :
    first :: rest.take ((numberRun first rest).length - 1) = numberRun first rest := by
  unfold numberRun
  dsimp only
  split
  · apply cons_take_of_prefix
    apply List.takeWhile_prefix
  · apply cons_take_of_prefix
    apply signedRun_prefix

theorem take_string (h : (rest.takeWhile (· ≠ '"')).length < rest.length) :
    rest.take ((rest.takeWhile (· ≠ '"')).length + 1) = rest.takeWhile (· ≠ '"') ++ ['"'] := by
  have hsplit : rest.takeWhile (· ≠ '"') ++ rest.dropWhile (· ≠ '"') = rest :=
    List.takeWhile_append_dropWhile
  cases hd : rest.dropWhile (· ≠ '"') with
  | nil =>
    rw [hd, List.append_nil] at hsplit
    rw [hsplit] at h
    exact absurd h (Nat.lt_irrefl _)
  | cons c after =>
    have hn := List.head?_dropWhile_not (· ≠ '"') rest
    rw [hd] at hn hsplit
    obtain rfl : c = '"' := by simpa using hn
    have htake (text : List Char) (he : text ++ '"' :: after = rest) :
        rest.take (text.length + 1) = text ++ ['"'] := by
      rw [← he, List.take_length_add_append]
      rfl
    exact htake _ hsplit

theorem Lexeme.take_read (h : (Lexeme.read first rest).IsClosed) :
    first :: rest.take (Lexeme.read first rest).more = (Lexeme.read first rest).source := by
  have hrun : first :: rest.take (Token.run rest).length = first :: Token.run rest :=
    cons_take_of_prefix (List.takeWhile_prefix _)
  revert h
  refine Lexeme.read_cases first rest ?_ ?_ ?_ ?_ ?_ ?_ ?_ ?_
  · rintro rfl hlt -
    dsimp only
    rw [take_string hlt]
    rfl
  · exact fun _ _ h => absurd rfl h
  · rintro - - second tail rfl - -
    rfl
  · intros
    rfl
  · intros
    exact cons_take_numberRun first rest
  all_goals
    intros
    exact hrun

/-- The text of a lexeme that is no string is what it covers. -/
theorem Lexeme.cons_take_read (hk : (Lexeme.read first rest).kind ≠ .string) :
    first :: rest.take (Lexeme.read first rest).more = (Lexeme.read first rest).text := by
  have hc : (Lexeme.read first rest).IsClosed :=
    (isClosed_or_eq first rest).resolve_right fun ⟨_, hu⟩ => hk (by rw [hu])
  rw [Lexeme.take_read hc, Lexeme.source_of_ne hk]

/-- A closed lexeme covers the source between blanks and what is left. -/
theorem exists_split (h : source.dropWhile isBlank = first :: rest)
    (hc : (Lexeme.read first rest).IsClosed) :
    ∃ blanks, (∀ c ∈ blanks, isBlank c) ∧
      source = blanks ++ ((Lexeme.read first rest).source ++
        rest.drop (Lexeme.read first rest).more) := by
  refine ⟨source.takeWhile isBlank, fun c hc => ?_, ?_⟩
  · simpa using List.all_eq_true.1 List.all_takeWhile c hc
  · rw [← Lexeme.take_read hc, List.cons_append, List.take_append_drop, ← h]
    exact List.takeWhile_append_dropWhile.symm

/-- The text of a string has no quote. -/
theorem Lexeme.quote_not_mem_read (hk : (Lexeme.read first rest).kind = .string) :
    '"' ∉ (Lexeme.read first rest).text := by
  revert hk
  refine Lexeme.read_cases first rest ?_ ?_ ?_ ?_ ?_ ?_ ?_ ?_
  · rintro - - - hm
    simpa using List.mem_takeWhile_imp hm
  · rintro - - - hm
    simpa using List.mem_takeWhile_imp hm
  all_goals
    intros
    contradiction

/-- A string opens and closes; no other lexeme holds a quote if only strings do. -/
theorem Lexeme.even_source
    (hq : (Lexeme.read first rest).kind ≠ .string → '"' ∉ (Lexeme.read first rest).text) :
    Even ((Lexeme.read first rest).source.count '"') := by
  by_cases hk : (Lexeme.read first rest).kind = .string
  · unfold source
    rw [hk]
    simp [List.count_eq_zero.2 (quote_not_mem_read hk)]
  · rw [source_of_ne hk, List.count_eq_zero.2 (hq hk)]
    exact Nat.even_iff.2 rfl

theorem Lexeme.isName_read
    (hk : (Lexeme.read first rest).kind = .name ∨ (Lexeme.read first rest).kind = .function) :
    IsName (Lexeme.read first rest).text := by
  have hname (hd : ¬ isDelimiterChar first) (hl : isLetter first) :
      IsName (first :: Token.run rest) := by
    refine ⟨⟨first, rfl, hl⟩, List.forall_mem_cons.2 ⟨by simpa using hd, fun c hc => ?_⟩⟩
    simpa using List.mem_takeWhile_imp hc
  revert hk
  refine Lexeme.read_cases first rest ?_ ?_ ?_ ?_ ?_ ?_ ?_ ?_
  case refine_6 | refine_7 => exact fun _ hd _ hl _ _ => hname hd hl
  all_goals
    intros
    rename_i hk
    rcases hk with hk | hk <;> cases hk

/-- The induction is on the lexemes: each before the name is skipped with the blanks in front of
it. -/
theorem exists_of_mem_lexemes {lexeme : Lexeme}
    (hf : ∀ lexeme ∈ lexemes source, lexeme.problem = none)
    (hm : lexeme ∈ lexemes source) (hk : lexeme.kind = .name) :
    IsName lexeme.text ∧ ∃ before after, source = before ++ lexeme.text ++ after ∧
      ((∀ lexeme ∈ lexemes source, lexeme.kind ≠ .string → '"' ∉ lexeme.text) →
        Even (before.count '"')) := by
  fun_induction lexemes source with
  | case1 => cases hm
  | case2 source first rest h ih =>
    obtain ⟨hp, hf⟩ := List.forall_mem_cons.1 hf
    obtain ⟨blanks, hblank, hsource⟩ := exists_split h (isClosed_of_faultless hp)
    have hcount : blanks.count '"' = 0 :=
      List.count_eq_zero.2 fun hq => absurd (hblank _ hq) (by decide)
    rcases List.mem_cons.1 hm with rfl | hm
    · have hne : (Lexeme.read first rest).kind ≠ .string := by simp [hk]
      rw [Lexeme.source_of_ne hne, ← List.append_assoc] at hsource
      refine ⟨Lexeme.isName_read (.inl hk), blanks, _, hsource, fun _ => ?_⟩
      rw [hcount]
      exact Nat.even_iff.2 rfl
    · obtain ⟨hname, before, after, hs, he⟩ := ih hf hm
      refine ⟨hname, blanks ++ (Lexeme.read first rest).source ++ before, after, ?_, fun hq => ?_⟩
      · rw [hsource, hs]
        simp
      · obtain ⟨hq, hqs⟩ := List.forall_mem_cons.1 hq
        rw [List.count_append, List.count_append, hcount, Nat.zero_add]
        exact (Lexeme.even_source hq).add (he hqs)

/-! ## Tokens -/

theorem exists_lexeme {text : List Char} {t : Token} (ht : t ∈ (scan text).1)
    (hk : t.kind ≠ .finish) :
    ∃ lexeme ∈ lexemes (beforeNul text), lexeme.shape = t.shape := by
  have hm : t.shape ∈ (scan text).1.map shape := List.mem_map_of_mem ht
  rw [scan, (scanFrom_lexemes 0 {} (beforeNul text)).1, List.mem_append] at hm
  rcases hm with hm | hm
  · exact List.mem_map.1 hm
  · exact absurd (congrArg Prod.fst (List.mem_singleton.1 hm)) hk

theorem exists_token {text : List Char} {lexeme : Lexeme}
    (hl : lexeme ∈ lexemes (beforeNul text)) : ∃ t ∈ (scan text).1, t.shape = lexeme.shape := by
  have hm : lexeme.shape ∈ (scan text).1.map shape := by
    rw [scan, (scanFrom_lexemes 0 {} (beforeNul text)).1]
    exact List.mem_append_left _ (List.mem_map_of_mem hl)
  exact List.mem_map.1 hm

theorem text_eq_of_lexeme {lexeme : Lexeme} {t : Token} (h : lexeme.shape = t.shape) :
    lexeme.text = t.text.toList := by
  have ht : String.ofList lexeme.text = t.text := congrArg Prod.snd h
  rw [← ht, String.toList_ofList]

/-- No token of the text but its strings has a quote. -/
def OnlyStringsQuote (text : List Char) : Prop :=
  ∀ t ∈ (scan text).1, t.kind ≠ .string → '"' ∉ t.text.toList

instance (text : List Char) : Decidable (OnlyStringsQuote text) :=
  inferInstanceAs (Decidable (∀ t ∈ _, _ → _))

theorem OnlyStringsQuote.lexemes {text : List Char} (h : OnlyStringsQuote text) :
    ∀ lexeme ∈ Token.lexemes (beforeNul text), lexeme.kind ≠ .string → '"' ∉ lexeme.text := by
  intro lexeme hl hk
  obtain ⟨t, ht, he⟩ := exists_token hl
  rw [text_eq_of_lexeme he.symm]
  exact h t ht fun hs => hk ((congrArg Prod.fst he).symm.trans hs)

end FormulaScript.Token
