import FormulaScript.Proofs.Token.Tiling

/-!
# Which blanks end a token

Tokens are separated by blanks of any kind, but names, numbers and unknown tokens go on to the next
delimiter, and only four of the blanks are delimiters. Any other blank after a character of such a
token becomes a part of it.
-/

namespace FormulaScript.Token

open Text

/-- Whether tokens of the kind go on to the next delimiter. -/
def Kind.Runs : Kind → Prop
  | .name | .function | .number _ | .unknown => True
  | .string | .delimiter | .finish => False

instance (kind : Kind) : Decidable kind.Runs :=
  match kind with
  | .name | .function | .number _ | .unknown => .isTrue trivial
  | .string | .delimiter | .finish => .isFalse id

theorem filter_delimiters : delimiters.filter isBlank = separators := by decide

theorem isDelimiterChar_iff {c : Char} (h : isBlank c) : isDelimiterChar c ↔ c ∈ separators := by
  rw [← filter_delimiters, List.mem_filter, and_iff_left h]
  exact List.contains_iff_mem

/-! ## Runs -/

/-- No delimiter is in the word but signs, and a delimiter follows it or nothing does. -/
structure Delimited (word after : List Char) : Prop where
  inside : ∀ c ∈ word, isDelimiterChar c → c = '+' ∨ c = '-'
  boundary : ∀ c ∈ after.head?, isDelimiterChar c

variable {rest word after : List Char} {first : Char}

theorem Delimited.cons (h : Delimited word after) (hc : isDelimiterChar c → c = '+' ∨ c = '-') :
    Delimited (c :: word) after :=
  ⟨List.forall_mem_cons.2 ⟨hc, h.inside⟩, h.boundary⟩

theorem delimited_run (text : List Char) : Delimited (run text) (text.drop (run text).length) := by
  refine ⟨fun c hc hd => ?_, fun c hc => ?_⟩
  · have hn := List.mem_takeWhile_imp hc
    simp [hd] at hn
  · have hdrop : text.drop (run text).length = text.dropWhile (!isDelimiterChar ·) := by
      have hs : run text ++ text.dropWhile (!isDelimiterChar ·) = text :=
        List.takeWhile_append_dropWhile
      calc text.drop (run text).length
          = (run text ++ text.dropWhile (!isDelimiterChar ·)).drop (run text).length := by rw [hs]
        _ = text.dropWhile (!isDelimiterChar ·) := List.drop_left
    have hn := List.head?_dropWhile_not (!isDelimiterChar ·) text
    rw [← hdrop, Option.mem_def.1 hc] at hn
    simpa using hn

theorem delimited_signedRun (previous : Char) (text : List Char) :
    Delimited (signedRun previous text) (text.drop (signedRun previous text).length) := by
  induction text generalizing previous with
  | nil => exact ⟨List.forall_mem_nil _, nofun⟩
  | cons c text ih =>
    rw [signedRun]
    split
    · next h =>
      refine ⟨List.forall_mem_nil _, ?_⟩
      rintro _ ⟨⟩
      exact (Bool.and_eq_true_iff.1 h).1
    · next h =>
      refine (ih c).cons fun hd => ?_
      by_contra hn
      exact h (by simp [hd, not_or.1 hn])

theorem Lexeme.delimited_read (hk : (Lexeme.read first rest).kind.Runs) :
    Delimited (Lexeme.read first rest).text (rest.drop (Lexeme.read first rest).more) := by
  have head {word : List Char} (h : Delimited word (rest.drop word.length))
      (hd : ¬ isDelimiterChar first) :
      Delimited (first :: word) (rest.drop ((first :: word).length - 1)) :=
    Delimited.cons h fun h => absurd h hd
  revert hk
  refine Lexeme.read_cases first rest (fun _ _ => False.elim) (fun _ _ => False.elim)
    (fun _ _ _ _ _ _ => False.elim) (fun _ _ _ => False.elim) ?_ ?_ ?_ ?_
  · intro _ hd _ _ _ _
    dsimp only [numberRun]
    split
    · exact head (delimited_run rest) hd
    · exact head (delimited_signedRun first rest) hd
  all_goals
    intro _ hd
    intros
    exact head (delimited_run rest) hd

/-- After its first character no lexeme but a string has a character that ends lexemes. -/
theorem Lexeme.not_pause_of_mem_take (hk : (Lexeme.read first rest).kind ≠ .string) :
    ∀ c ∈ rest.take (Lexeme.read first rest).more, c ∉ pauses := by
  have hrun (hr : (Lexeme.read first rest).kind.Runs) :
      ∀ c ∈ rest.take (Lexeme.read first rest).more, c ∉ pauses := fun c hc hp => by
    have hm : c ∈ (Lexeme.read first rest).text :=
      Lexeme.cons_take_read hk ▸ List.mem_cons_of_mem _ hc
    rcases (Lexeme.delimited_read hr).inside c hm (isDelimiterChar_of_pause hp) with rfl | rfl <;>
      exact absurd hp (by decide)
  revert hk hrun
  refine Lexeme.read_cases first rest ?_ ?_ ?_ ?_ ?_ ?_ ?_ ?_
  · exact fun _ _ hk => absurd rfl hk
  · exact fun _ _ hk => absurd rfl hk
  · rintro - - second tail rfl ho - -
    have hall : ∀ symbols ∈ twoCharOperators, symbols.2 ∉ pauses := by decide
    exact List.forall_mem_singleton.2 (hall _ (List.contains_iff_mem.1 ho))
  · exact fun _ _ _ _ _ => List.forall_mem_nil _
  all_goals
    intros
    rename_i hrun c hc
    exact hrun trivial c hc

/-- Where a token stands in the text that goes on to the next delimiter. -/
theorem exists_delimited {text : List Char} {t : Token} (ht : t ∈ (scan text).1)
    (hk : t.kind.Runs) : ∃ front after, beforeNul text = front ++ (t.text.toList ++ after) ∧
      t.position = front.length ∧ Delimited t.text.toList after := by
  have hf : t.isFinish = false := isFinish_eq_false fun h => by rw [h] at hk; exact hk
  obtain ⟨front, first, rest, hs, rfl, -⟩ :=
    (tiles_scanFrom [] (beforeNul text)).exists_read ht hf
  have hne : (Lexeme.read first rest).kind ≠ .string := fun h => by
    change (Lexeme.read first rest).kind.Runs at hk
    rw [h] at hk
    exact hk
  have htake := Lexeme.cons_take_read hne
  have htext : ((Lexeme.read first rest).token front.length (.ofText front)).text.toList =
      (Lexeme.read first rest).text := String.toList_ofList
  refine ⟨front, rest.drop (Lexeme.read first rest).more, ?_, rfl, ?_⟩
  · rw [htext, ← htake, List.cons_append, List.take_append_drop]
    exact hs
  · rw [htext]
    exact Lexeme.delimited_read hk

/-! ## Blanks -/

/-- A blank after a character of a name, a number or an unknown token ends the token if it is one of
the four blanks among the delimiters, and is a part of the token if it is another one. -/
theorem blank_ends_token_iff (text : List Char) {t : Token} (ht : t ∈ (scan text).1)
    (hk : t.kind.Runs) {i : Nat} {c : Char} (hc : text[i]? = some c) (hb : isBlank c)
    (hi : t.position ≤ i) (hi' : i ≤ t.position + t.text.length) :
    i = t.position + t.text.length ↔ c ∈ separators := by
  obtain ⟨front, after, hs, hp, hd⟩ := exists_delimited ht hk
  have htext : text = front ++ (t.text.toList ++ (after ++ text.dropWhile (· ≠ '\x00'))) := by
    rw [← List.append_assoc t.text.toList, ← List.append_assoc, ← hs]
    exact List.takeWhile_append_dropWhile.symm
  have hlength : t.text.length = t.text.toList.length := String.length_toList.symm
  rw [hlength] at hi' ⊢
  rw [htext, List.getElem?_append_right (hp ▸ hi), ← hp] at hc
  rw [← isDelimiterChar_iff hb]
  rcases Nat.lt_or_ge i (t.position + t.text.toList.length) with hlt | hge
  · -- the blank is in the token
    rw [List.getElem?_append_left (by omega)] at hc
    refine ⟨fun h => absurd h (Nat.ne_of_lt hlt), fun h => ?_⟩
    rcases hd.inside c (List.mem_of_getElem? hc) h with rfl | rfl <;> exact absurd hb (by decide)
  · obtain rfl := Nat.le_antisymm hi' hge
    refine ⟨fun _ => ?_, fun _ => rfl⟩
    rw [Nat.add_sub_cancel_left, List.getElem?_append_right (Nat.le_refl _), Nat.sub_self,
      ← List.head?_eq_getElem?] at hc
    cases after with
    | cons d after => exact hd.boundary c hc
    | nil =>
      -- the NUL that ends the text is no blank
      have hn := List.head?_dropWhile_not (· ≠ '\x00') text
      rw [List.nil_append] at hc
      rw [hc] at hn
      obtain rfl : c = '\x00' := by simpa using hn
      exact absurd hb (by decide)

theorem blank_ends_token_iff_tabs :
    let text := "a\x0b\tb".toList
    ∃ t ∈ (scan text).1, t.kind.Runs ∧ t.position = 0 ∧ t.text = "a\x0b" ∧
      text[2]? = some '\t' ∧ isBlank '\t' ∧ isBlank '\x0b' ∧
      (2 = t.position + t.text.length ↔ '\t' ∈ separators) ∧
      (1 = t.position + t.text.length ↔ '\x0b' ∈ separators) := by
  intro text
  have h : ∃ t ∈ (scan text).1, t.kind.Runs ∧ t.position = 0 ∧ t.text = "a\x0b" := by
    decide +kernel
  obtain ⟨t, ht, hk, hp, hl⟩ := h
  have hlength : t.text.length = 2 := by rw [hl]; rfl
  have htab : isBlank '\t' := by decide
  have hvertical : isBlank '\x0b' := by decide
  refine ⟨t, ht, hk, hp, hl, rfl, htab, hvertical, ?_, ?_⟩
  · exact blank_ends_token_iff text ht hk rfl htab (by omega) (by omega)
  · exact blank_ends_token_iff text ht hk rfl hvertical (by omega) (by omega)

/-- A vertical tab after a name becomes a part of it. -/
theorem name_with_blank : ¬ ∀ t ∈ (scan "x\x0b+1".toList).1, t.kind.Runs →
    ∀ c ∈ t.text.toList, isBlank c = false := by
  have hname : ∃ t ∈ (scan "x\x0b+1".toList).1, t.kind.Runs ∧ '\x0b' ∈ t.text.toList := by
    decide +kernel
  obtain ⟨t, ht, hk, hc⟩ := hname
  exact fun h => absurd (h t ht hk '\x0b' hc) (by decide)

end FormulaScript.Token
