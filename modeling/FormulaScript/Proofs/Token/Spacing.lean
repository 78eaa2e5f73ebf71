import FormulaScript.Proofs.Token.Boundaries

/-!
# Blanks between tokens

A run of blanks that are delimiters, in front of a token or after it, ends the token before it
however long it is, keeps two characters from being one operator, and is passed over when a
parenthesis is looked for. So the tokens of a text stay when such runs are replaced by others,
except in strings. The texts with and without the replacement are read side by side: `Spaced` keeps
the position in the first of them, which tells where its strings are.
-/

namespace FormulaScript.Token

open Text

/-- From a position on the texts are alike but for runs of separators: one run may stand in place of
another that has no fixed position in it. -/
inductive Spaced (fixed : Nat → Prop) : Nat → List Char → List Char → Prop
  | nil : Spaced fixed i [] []
  | char : Spaced fixed (i + 1) a b → Spaced fixed i (c :: a) (c :: b)
  | gap : x ∈ separators → (∀ c ∈ xs, c ∈ separators) →
      y ∈ separators → (∀ c ∈ ys, c ∈ separators) →
      (∀ k ≤ xs.length, ¬ fixed (i + k)) → Spaced fixed (i + (xs.length + 1)) a b →
      Spaced fixed i (x :: (xs ++ a)) (y :: (ys ++ b))

/-- Whether a string of the text covers the position. -/
def InString (text : List Char) (i : Nat) : Prop :=
  ∃ t ∈ (scan text).1, t.kind = .string ∧ t.position ≤ i ∧ i < t.stop text.length

instance (text : List Char) (i : Nat) : Decidable (InString text i) :=
  inferInstanceAs (Decidable (∃ t ∈ (scan text).1, t.kind = .string ∧ _))

namespace Spaced

variable {fixed : Nat → Prop} {a b word : List Char} {c first : Char} {i : Nat}

theorem refl (i : Nat) (a : List Char) : Spaced fixed i a a := by
  induction a generalizing i with
  | nil => exact .nil
  | cons c a ih => exact .char (ih (i + 1))

theorem append (word : List Char) (h : Spaced fixed (i + word.length) a b) :
    Spaced fixed i (word ++ a) (word ++ b) := by
  induction word generalizing i with
  | nil => exact h
  | cons c word ih =>
    refine .char (ih ?_)
    rwa [List.length_cons, Nat.add_comm word.length, ← Nat.add_assoc] at h

theorem eq_nil (h : Spaced fixed i [] b) : b = [] := by
  cases h
  rfl

/-- The other text has no new characters but separators. -/
theorem mem_or_separator (h : Spaced fixed i a b) : ∀ c ∈ b, c ∈ a ∨ c ∈ separators := by
  induction h with
  | nil => exact List.forall_mem_nil _
  | char _ ih =>
    refine List.forall_mem_cons.2 ⟨.inl List.mem_cons_self, fun c hc => ?_⟩
    exact (ih c hc).imp_left (List.mem_cons_of_mem _)
  | gap _ _ hy hys _ _ ih =>
    refine List.forall_mem_cons.2 ⟨.inr hy, List.forall_mem_append.2
      ⟨fun c hc => .inr (hys c hc), fun c hc => ?_⟩⟩
    exact (ih c hc).imp_left fun hm => List.mem_cons_of_mem _ (List.mem_append_right _ hm)

theorem not_nul_mem (h : Spaced fixed i a b) (hn : '\x00' ∉ a) : '\x00' ∉ b :=
  fun hm => (h.mem_or_separator _ hm).elim hn (by decide)

/-! ## What follows a token -/

theorem dropWhile_gap {x : Char} {xs : List Char} (hx : x ∈ separators)
    (hxs : ∀ c ∈ xs, c ∈ separators) (a : List Char) :
    (x :: (xs ++ a)).dropWhile isBlank = a.dropWhile isBlank :=
  dropWhile_blanks (isBlank_of_mem_separators hx)
    (fun c hc => isBlank_of_mem_separators (hxs c hc)) a

/-- A token ends in front of both texts or goes on into both. -/
theorem meets (h : Spaced fixed i a b) : Meets a b where
  head := by
    cases h with
    | nil => exact .inl rfl
    | char => exact .inl rfl
    | gap hx _ hy _ _ _ => exact .inr ⟨paused_cons_separator hx, paused_cons_separator hy⟩
  opening := by
    induction h with
    | nil => exact Iff.rfl
    | @char _ _ _ c _ ih =>
      by_cases hc : isBlank c
      · simpa [hc] using ih
      · simp [hc]
    | gap hx hxs hy hys _ _ ih => rwa [dropWhile_gap hx hxs, dropWhile_gap hy hys]

/-! ## Side by side -/

/-- A character that no run of separators holds is in both texts. -/
theorem of_cons (h : Spaced fixed i (c :: a) b) (hc : c ∉ separators ∨ fixed i) :
    ∃ b', b = c :: b' ∧ Spaced fixed (i + 1) a b' := by
  cases h with
  | char h => exact ⟨_, rfl, h⟩
  | gap hx _ _ _ hf _ => exact absurd hc (not_or.2 ⟨not_not_intro hx, hf 0 (Nat.zero_le _)⟩)

/-- Characters that no run of separators holds are in both texts. -/
theorem of_append (h : Spaced fixed i (word ++ a) b)
    (hw : (∀ c ∈ word, c ∉ separators) ∨ ∀ k < word.length, fixed (i + k)) :
    ∃ b', b = word ++ b' ∧ Spaced fixed (i + word.length) a b' := by
  induction word generalizing i b with
  | nil => exact ⟨b, rfl, h⟩
  | cons c word ih =>
    obtain ⟨b, rfl, hword⟩ := h.of_cons
      (hw.imp (fun hw => hw c List.mem_cons_self) fun hw => hw 0 (Nat.succ_pos _))
    obtain ⟨b, rfl, ha⟩ := ih hword <| hw.imp (fun hw d hd => hw d (List.mem_cons_of_mem _ hd))
      fun hw k hk => by
        rw [Nat.add_assoc, Nat.add_comm 1]
        exact hw (k + 1) (Nat.succ_lt_succ hk)
    refine ⟨b, rfl, ?_⟩
    rwa [List.length_cons, Nat.add_comm word.length, ← Nat.add_assoc]

/-- Behind their blanks the texts start with the same character, or both end. -/
theorem next (h : Spaced fixed i a b) :
    (a.dropWhile isBlank = [] ∧ b.dropWhile isBlank = []) ∨
      ∃ first a' b', a.dropWhile isBlank = first :: a' ∧ b.dropWhile isBlank = first :: b' ∧
        Spaced fixed (i + (a.takeWhile isBlank).length + 1) a' b' := by
  induction h with
  | nil => exact .inl ⟨rfl, rfl⟩
  | @char i a b c h ih =>
    by_cases hc : isBlank c
    · simp only [List.dropWhile_cons_of_pos hc, List.takeWhile_cons_of_pos hc, List.length_cons]
      simpa only [Nat.add_assoc, Nat.add_comm 1] using ih
    · exact .inr ⟨c, a, b, by simp [hc], by simp [hc], by simpa [hc] using h⟩
  | @gap x xs y ys i a b hx hxs hy hys _ _ ih =>
    have hall : ∀ c ∈ x :: xs, isBlank c :=
      List.forall_mem_cons.2 ⟨isBlank_of_mem_separators hx,
        fun c hc => isBlank_of_mem_separators (hxs c hc)⟩
    have htake : ((x :: (xs ++ a)).takeWhile isBlank).length =
        (xs.length + 1) + (a.takeWhile isBlank).length := by
      rw [← List.cons_append, List.takeWhile_append_of_pos hall, List.length_append,
        List.length_cons]
    rw [dropWhile_gap hx hxs, dropWhile_gap hy hys, htake, ← Nat.add_assoc i]
    exact ih

/-- The same lexeme is read from both texts, unless it is a string with a run of separators that is
replaced. -/
theorem read (h : Spaced fixed (i + 1) (word ++ a) b)
    (hm : (Lexeme.read first (word ++ a)).more = word.length)
    (hs : (Lexeme.read first (word ++ a)).kind = .string →
      ∀ k < word.length, fixed (i + 1 + k)) :
    ∃ b', b = word ++ b' ∧ Lexeme.read first (word ++ b') = Lexeme.read first (word ++ a) ∧
      Spaced fixed (i + (word.length + 1)) a b' := by
  have hword : (∀ c ∈ word, c ∉ separators) ∨ ∀ k < word.length, fixed (i + 1 + k) := by
    by_cases hk : (Lexeme.read first (word ++ a)).kind = .string
    · exact .inr (hs hk)
    · have hpause := Lexeme.not_pause_of_mem_take hk
      rw [hm, List.take_left] at hpause
      exact .inl fun c hc hsep => hpause c hc (List.mem_append_left _ hsep)
  obtain ⟨b, rfl, ha⟩ := h.of_append hword
  refine ⟨b, rfl, ?_, by rwa [Nat.add_assoc, Nat.add_comm 1] at ha⟩
  rcases isClosed_or_eq first (word ++ a) with hc | ⟨-, hu⟩
  · exact ha.meets.read (Nat.le_of_eq hm) hc
  · -- the string takes all that is left
    rw [hu, List.length_append] at hm
    obtain rfl : a = [] := List.length_eq_zero_iff.1 (by simpa using hm)
    rw [ha.eq_nil]

/-- The texts have the same lexemes if every string of the first is fixed. The induction is on these
lexemes, and the position at which each is read is that of its token. -/
theorem lexemes_eq (h : Spaced fixed i a b) (location : Location)
    (hs : ∀ t ∈ (scanFrom i location a).1, t.kind = .string →
      ∀ k, t.position ≤ k → k < t.stop (i + a.length) → fixed k) :
    lexemes b = lexemes a := by
  fun_induction lexemes a generalizing i location b with
  | case1 a ha =>
    rcases h.next with ⟨-, hb⟩ | ⟨_, _, _, ha', -⟩
    · rw [lexemes_eq_nil hb]
    · cases ha.symm.trans ha'
  | case2 a first rest ha ih =>
    rcases h.next with ⟨ha', -⟩ | ⟨_, _, b', ha', hb, h⟩
    · cases ha.symm.trans ha'
    obtain ⟨rfl, rfl⟩ := List.cons.inj (ha.symm.trans ha')
    have hlength : i + a.length = i + (a.takeWhile isBlank).length + (rest.length + 1) := by
      rw [← List.length_cons, ← ha, Nat.add_assoc, ← List.length_append,
        List.takeWhile_append_dropWhile]
    rw [scanFrom_eq_cons ha, hlength] at hs
    obtain ⟨hfirst, hs⟩ := List.forall_mem_cons.1 hs
    rw [stop_token] at hfirst
    obtain ⟨word, left, rfl, hm⟩ := Lexeme.exists_split_rest first rest
    rw [hm] at hfirst
    rw [hm, List.drop_left, List.length_append, Nat.add_right_comm word.length,
      ← Nat.add_assoc _ (word.length + 1)] at hs
    obtain ⟨b', rfl, hread, hleft⟩ := h.read hm fun hk k hlt =>
      hfirst hk _ (by simp only [Lexeme.token]; omega) (by omega)
    rw [lexemes_eq_cons hb, hread, hm, List.drop_left, List.drop_left]
    rw [hm, List.drop_left] at ih
    rw [ih hleft _ hs]

end Spaced

/-- Texts have the same lexemes if they differ only in runs of separators outside strings. -/
theorem lexemes_of_spaced {text text' : List Char} (hn : '\x00' ∉ text)
    (h : Spaced (InString text) 0 text text') : lexemes text' = lexemes text := by
  refine h.lexemes_eq {} fun t ht hk k hle hlt => ?_
  rw [Nat.zero_add] at hlt
  rw [← scan_eq_scanFrom hn] at ht
  exact ⟨t, ht, hk, hle, hlt⟩

end FormulaScript.Token
