import FormulaScript.Proofs.Text.Swaps
import FormulaScript.Proofs.Token.Prefixes

/-!
# Literals among lexemes

A string that starts at the quote of a literal is the literal, and with another literal in its place
all other lexemes of the text stay as they are.
-/

namespace FormulaScript.Token

open Text

variable {source rest : List Char} {position : Nat} {location : Location}

/-! ## Where tokens start -/

/-- Up to a token the text is read as lexemes. -/
theorem exists_lexes {t : Token} (ht : t ∈ (scanFrom position location source).1)
    (hk : t.kind ≠ .finish) :
    ∃ (before rest : List Char) (ls : List Lexeme), source = before ++ rest ∧ rest ≠ [] ∧
      t.position = position + before.length ∧ Lexes source ls rest := by
  fun_induction scanFrom position location source with
  | case1 =>
    rw [List.mem_singleton] at ht
    exact absurd (ht ▸ rfl) hk
  | case2 position location source blanks start place first rest h lexeme token diagnostics tokens
      others heq ih =>
    have hblanks : ∀ c ∈ blanks, isBlank c := fun c hc => by
      simpa using List.all_eq_true.1 List.all_takeWhile c hc
    have hs : source = blanks ++ first :: rest := by
      rw [← h]
      exact List.takeWhile_append_dropWhile.symm
    have hfirst : isBlank first = false := isBlank_of_trimLeft h
    rcases List.mem_cons.1 ht with rfl | ht
    · exact ⟨blanks, first :: rest, [], hs, by simp, rfl, hs ▸ (Lexes.done _).blanks hblanks⟩
    · obtain ⟨before, left, ls, hrest, hne, hp, hl⟩ := ih (heq ▸ ht)
      have hmore : lexeme.more ≤ rest.length := Lexeme.more_read_le first rest
      refine ⟨blanks ++ first :: rest.take lexeme.more ++ before, left, lexeme :: ls, ?_, hne, ?_,
        ?_⟩
      · rw [List.append_assoc, List.append_assoc, List.cons_append, ← hrest,
          List.take_append_drop]
        exact hs
      · simp only [hp, start, List.length_append, List.length_cons, List.length_take]
        omega
      · rw [hs]
        exact (Lexes.lexeme hfirst hl).blanks hblanks

/-- A string token of the text starts at the position. -/
def StringAt (text : List Char) (position : Nat) : Prop :=
  ∃ t ∈ (scan text).1, t.kind = .string ∧ t.position = position

instance (kind : Kind) : Decidable (kind = .string) :=
  match kind with
  | .string => isTrue rfl
  | .number _ | .name | .function | .delimiter | .unknown | .finish => isFalse nofun

instance (text : List Char) (position : Nat) : Decidable (StringAt text position) :=
  inferInstanceAs (Decidable (∃ t ∈ (scan text).1, t.kind = .string ∧ t.position = position))

/-! ## Lexemes around a literal -/

/-- Only the last lexeme of a text is not closed. -/
theorem Lexes.isClosed (h : Lexes source ls rest) (hr : rest ≠ []) :
    ∀ lexeme ∈ ls, lexeme.IsClosed := by
  induction h with
  | done => exact List.forall_mem_nil _
  | blank _ _ ih => exact ih hr
  | @lexeme first ls rest source _ h ih =>
    refine List.forall_mem_cons.2 ⟨?_, ih hr⟩
    rcases isClosed_or_eq first source with hc | ⟨-, hu⟩
    · exact hc
    · have hsuffix := h.suffix
      rw [hu, List.drop_length, List.suffix_nil] at hsuffix
      exact absurd hsuffix hr

/-- The lexeme of a literal. -/
def Lexeme.ofLiteral (x : Literal) : Lexeme := ⟨.string, x.text, x.text.length + 1, none⟩

theorem lexemes_quoted (x : Literal) (rest : List Char) :
    lexemes (x.quoted ++ rest) = .ofLiteral x :: lexemes rest := by
  have hs : x.quoted ++ rest = '"' :: (x.text ++ '"' :: rest) := by simp
  have hd : (x.quoted ++ rest).dropWhile isBlank = '"' :: (x.text ++ '"' :: rest) := by
    rw [hs]
    exact List.dropWhile_cons_of_neg (by decide)
  rw [lexemes_eq_cons hd, read_closed x.quote]
  simp [Lexeme.ofLiteral]

/-- Every literal between the texts is a lexeme, with the same lexemes around it. -/
def Surround (before after : List Char) : Prop :=
  ∃ ls ls' : List Lexeme, ∀ z : Literal,
    lexemes (beforeNul (before ++ z.quoted ++ after)) = ls ++ .ofLiteral z :: ls'

/-- If a string starts at one literal, it does so at all in its place. -/
theorem StringAt.surround {before after : List Char} {x : Literal}
    (h : StringAt (before ++ x.quoted ++ after) before.length) : Surround before after := by
  obtain ⟨t, ht, hk, hp⟩ := h
  obtain ⟨front, left, ls, hs, hne, hp', hl⟩ := exists_lexes ht (by simp [hk])
  have hsplit : front ++ (left ++ (before ++ x.quoted ++ after).dropWhile (· ≠ '\x00')) =
      before ++ (x.quoted ++ after) := by
    rw [← List.append_assoc, ← hs, ← List.append_assoc before]
    exact List.takeWhile_append_dropWhile
  obtain ⟨rfl, -⟩ := List.append_inj hsplit (by simpa using hp'.symm.trans hp)
  have hn : '\x00' ∉ front := fun hm =>
    not_mem_beforeNul (front ++ x.quoted ++ after) (hs ▸ List.mem_append_left _ hm)
  have hcut (z : Literal) : beforeNul (front ++ z.quoted ++ after) =
      front ++ '"' :: (z.text ++ '"' :: beforeNul after) := by
    have hz : '\x00' ∉ z.quoted := by simp [z.nul]
    rw [List.append_assoc, beforeNul_append hn, beforeNul_append hz]
    simp
  have hleft : left = '"' :: (x.text ++ '"' :: beforeNul after) :=
    List.append_cancel_left (hs.symm.trans (hcut x))
  subst hleft
  rw [hcut x] at hl
  refine ⟨ls, lexemes (beforeNul after), fun z => ?_⟩
  -- the lexemes in front of the quote do not depend on what follows it
  have hz := hl.replace (.same _ (z.text ++ '"' :: beforeNul after) (by decide)) (hl.isClosed hne)
  have hq : z.quoted ++ beforeNul after = '"' :: (z.text ++ '"' :: beforeNul after) := by simp
  rw [hcut z, hz.lexemes_eq, ← hq, lexemes_quoted]

end FormulaScript.Token
