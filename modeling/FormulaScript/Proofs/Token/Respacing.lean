import FormulaScript.Proofs.Token.Boundaries

/-!
# Spaces between lexemes

`Respaced stop a b` says that two texts are alike up to an end at which `stop` holds, but for the
number of spaces where both have some. Without strings, the lexemes up to the end are alike then:
where a lexeme ends, and whether it is a function, depends on no more than that. So the lexemes of a
text stay when its runs of spaces collapse.
-/

namespace FormulaScript.Token

open Text

theorem dropWhile_spaces {x : Char} {xs : List Char} (hx : isSpace x) (hxs : ∀ c ∈ xs, isSpace c)
    (text : List Char) : (x :: (xs ++ text)).dropWhile isBlank = text.dropWhile isBlank :=
  dropWhile_blanks (isBlank_of_isSpace hx) (fun c hc => isBlank_of_isSpace (hxs c hc)) text

inductive Respaced (stop : List Char → List Char → Prop) : List Char → List Char → Prop
  | stop : stop a b → Respaced stop a b
  | gap : isSpace x → (∀ c ∈ xs, isSpace c) → isSpace y → (∀ c ∈ ys, isSpace c) →
      Respaced stop a b → Respaced stop (x :: (xs ++ a)) (y :: (ys ++ b))
  | char : isBlank c = false → Respaced stop a b → Respaced stop (c :: a) (c :: b)

section

variable {stop : List Char → List Char → Prop} {a b word : List Char} {first : Char}

/-- A lexeme ends in front of both texts or goes on into both. -/
theorem Respaced.meets (hs : ∀ a b, stop a b → Pauses a ∧ Pauses b) (h : Respaced stop a b) :
    Meets a b where
  head := by
    cases h with
    | stop h => exact ((hs a b h).1.meets (hs a b h).2).head
    | gap hx _ hy _ _ => exact .inr ⟨paused_cons hx, paused_cons hy⟩
    | char => exact .inl rfl
  opening := by
    induction h with
    | @stop a b h => exact ((hs a b h).1.meets (hs a b h).2).opening
    | gap hx hxs hy hys _ ih => rwa [dropWhile_spaces hx hxs, dropWhile_spaces hy hys]
    | char hc => simp [hc]

/-- Characters that end no lexeme are in both texts. -/
theorem Respaced.of_append (hs : ∀ a b, stop a b → Pauses a ∧ Pauses b)
    (h : Respaced stop (word ++ a) b) (hw : ∀ c ∈ word, c ∉ pauses) :
    ∃ b', b = word ++ b' ∧ Respaced stop a b' := by
  induction word generalizing b with
  | nil => exact ⟨b, rfl, h⟩
  | cons c word ih =>
    obtain ⟨hc, hw⟩ := List.forall_mem_cons.1 hw
    generalize he : c :: word ++ a = text at h
    cases h with
    | stop h =>
      subst he
      exact absurd ((hs _ _ h).1.head c rfl) hc
    | gap hx =>
      obtain ⟨rfl, -⟩ := List.cons.inj he
      exact absurd (mem_pauses_of_isSpace hx) hc
    | char _ h =>
      obtain ⟨rfl, rfl⟩ := List.cons.inj he
      obtain ⟨b, rfl, hleft⟩ := ih h hw
      exact ⟨b, rfl, hleft⟩

/-- A lexeme is read alike from both texts, and they stay alike after it. -/
theorem Respaced.read (hs : ∀ a b, stop a b → Pauses a ∧ Pauses b)
    (h : Respaced stop (word ++ a) b) (hq : first ≠ '"')
    (hm : (Lexeme.read first (word ++ a)).more = word.length) :
    ∃ b', b = word ++ b' ∧ Lexeme.read first (word ++ b') = Lexeme.read first (word ++ a) ∧
      Respaced stop a b' := by
  have hword := Lexeme.not_pause_of_mem_take (kind_read_ne_string hq (word ++ a))
  rw [hm, List.take_left] at hword
  obtain ⟨b, rfl, hleft⟩ := h.of_append hs hword
  exact ⟨b, rfl, (hleft.meets hs).read (Nat.le_of_eq hm) (isClosed_of_ne hq _), hleft⟩

/-- Both texts go on with the same character after their blanks, or come to the end. -/
theorem Respaced.next (h : Respaced stop a b) :
    (∃ first a' b', a.dropWhile isBlank = first :: a' ∧ b.dropWhile isBlank = first :: b' ∧
        Respaced stop a' b') ∨
      ∃ xs ys a' b', a = xs ++ a' ∧ b = ys ++ b' ∧ (∀ c ∈ xs, isBlank c) ∧
        (∀ c ∈ ys, isBlank c) ∧ stop a' b' := by
  induction h with
  | @stop a b h => exact .inr ⟨[], [], a, b, rfl, rfl, by simp, by simp, h⟩
  | @gap x xs y ys a b hx hxs hy hys h ih =>
    rw [dropWhile_spaces hx hxs, dropWhile_spaces hy hys]
    rcases ih with ih | ⟨xs', ys', a', b', rfl, rfl, hxs', hys', h'⟩
    · exact .inl ih
    · refine .inr ⟨x :: (xs ++ xs'), y :: (ys ++ ys'), a', b', by simp, by simp, ?_, ?_, h'⟩
      · simp only [List.forall_mem_cons, List.forall_mem_append]
        exact ⟨isBlank_of_isSpace hx, fun c hc => isBlank_of_isSpace (hxs c hc), hxs'⟩
      · simp only [List.forall_mem_cons, List.forall_mem_append]
        exact ⟨isBlank_of_isSpace hy, fun c hc => isBlank_of_isSpace (hys c hc), hys'⟩
  | @char c a b hc h => exact .inl ⟨c, a, b, by simp [hc], by simp [hc], h⟩

/-- The lexemes up to the end are alike. The induction is on the length of the text, of which a
lexeme takes a character at least. -/
theorem Respaced.lexemes_eq (hs : ∀ a b, stop a b → Pauses a ∧ Pauses b)
    (ht : ∀ a b, stop a b → lexemes b = lexemes a) (h : Respaced stop a b) (hq : '"' ∉ a) :
    lexemes b = lexemes a := by
  induction hn : a.length using Nat.strongRecOn generalizing a b with
  | ind n ih =>
    rcases h.next with ⟨first, a', b', ha, hb, h'⟩ | ⟨xs, ys, a', b', rfl, rfl, hxs, hys, h'⟩
    · have hsuffix : first :: a' <:+ a := ha ▸ List.dropWhile_suffix _
      obtain ⟨word, left, rfl, hm⟩ := Lexeme.exists_split_rest first a'
      obtain ⟨b', rfl, hr, hleft⟩ :=
        h'.read hs (fun he => hq (hsuffix.subset (he ▸ List.mem_cons_self))) hm
      have hsuffix' : left <:+ a :=
        (List.suffix_append word left).trans ((List.suffix_cons _ _).trans hsuffix)
      have hlt : left.length < n := by
        have := hsuffix.length_le
        rw [List.length_cons, List.length_append] at this
        omega
      rw [lexemes_eq_cons ha, lexemes_eq_cons hb, hr, hm, List.drop_left, List.drop_left,
        ih _ hlt hleft (fun hm => hq (hsuffix'.subset hm)) rfl]
    · rw [lexemes_append_of_blank hxs, lexemes_append_of_blank hys]
      exact ht a' b' h'

theorem Respaced.append {text : List Char} (hb : ∀ c ∈ text, isBlank c → isSpace c)
    (h : Respaced stop a b) : Respaced stop (text ++ a) (text ++ b) := by
  induction text with
  | nil => exact h
  | cons c text ih =>
    obtain ⟨hc, hb⟩ := List.forall_mem_cons.1 hb
    by_cases hblank : isBlank c
    · have hnil : ∀ c ∈ ([] : List Char), isSpace c := List.forall_mem_nil _
      have hgap := Respaced.gap (hc hblank) hnil (hc hblank) hnil (ih hb)
      exact hgap
    · exact .char (by simpa using hblank) (ih hb)

end

/-! ## Fewer spaces -/

/-- Two texts with the same characters but for the number of spaces between and after them. -/
abbrev Collapsed : List Char → List Char → Prop :=
  Respaced fun a b => (∀ c ∈ a, isSpace c) ∧ ∀ c ∈ b, isSpace c

theorem pauses_of_spaces {a : List Char} (h : ∀ c ∈ a, isSpace c) : Pauses a where
  head c hc := mem_pauses_of_isSpace (h c (List.mem_of_mem_head? hc))
  after c hc := by
    have hb : a.dropWhile isBlank = [] :=
      List.dropWhile_eq_nil_iff.2 fun c hc => isBlank_of_isSpace (h c hc)
    rw [hb] at hc
    cases hc

theorem pauses_of_ends {a b : List Char} (h : (∀ c ∈ a, isSpace c) ∧ ∀ c ∈ b, isSpace c) :
    Pauses a ∧ Pauses b :=
  ⟨pauses_of_spaces h.1, pauses_of_spaces h.2⟩

theorem meets_of_collapsed {a b : List Char} (h : Collapsed a b) : Meets a b :=
  h.meets fun _ _ => pauses_of_ends

theorem lexemes_of_collapsed {a b : List Char} (h : Collapsed a b) (hq : '"' ∉ a) :
    lexemes b = lexemes a := by
  have hnil {a : List Char} (h : ∀ c ∈ a, isSpace c) : lexemes a = [] :=
    lexemes_eq_nil (List.dropWhile_eq_nil_iff.2 fun c hc => isBlank_of_isSpace (h c hc))
  exact h.lexemes_eq (fun _ _ => pauses_of_ends) (fun a b h => by rw [hnil h.1, hnil h.2]) hq

end FormulaScript.Token
