import FormulaScript.Proofs.Token.Boundaries

/-!
# Starts of words

A character after a space starts a lexeme, unless the space is in a string. So what stands on its
own between spaces of a text is one of its lexemes, or is in a string.
-/

namespace FormulaScript.Token

open Text

variable {source rest : List Char} {first : Char}

/-- A space in a lexeme is in a string, so what follows it there is, too. -/
theorem Lexeme.odd_of_space {front back : List Char} {c : Char}
    (hs : (Lexeme.read first rest).source = front ++ c :: back) (hb : isBlank first = false)
    (hc : c ≠ '"') (hsp : ' ' ∈ front) : Odd (front.count '"') := by
  by_cases hk : (Lexeme.read first rest).kind = .string
  · have ht := Lexeme.quote_not_mem_read hk
    unfold source at hs
    simp only [hk] at hs
    cases front with
    | nil => cases hsp
    | cons d front =>
      have htail : (Lexeme.read first rest).text ++ ['"'] = front ++ c :: back :=
        (List.cons.inj hs).2
      have hm : '"' ∉ front := by
        rcases List.append_eq_append_iff.1 htail with ⟨more, hf, hr⟩ | ⟨more, ht', -⟩
        · cases more with
          | nil => exact absurd (List.cons.inj hr).1.symm hc
          | cons e more => exact absurd (List.cons.inj hr).2 (by simp)
        · exact fun hm => ht (ht' ▸ List.mem_append_left _ hm)
      rw [← (List.cons.inj hs).1, List.count_cons_self, List.count_eq_zero.2 hm]
      decide
  · rw [source_of_ne hk] at hs
    have hm : ' ' ∈ (Lexeme.read first rest).text := hs ▸ List.mem_append_left _ hsp
    rw [← Lexeme.cons_take_read hk] at hm
    rcases List.mem_cons.1 hm with rfl | hm
    · exact absurd hb (by decide)
    · exact absurd (by decide) (Lexeme.not_pause_of_mem_take hk ' ' hm)

/-- A character after a space, or at the start of the text, begins a lexeme if it is in no string.
The induction is on the lexemes. -/
theorem exists_read_of_space {front back : List Char} {c : Char}
    (hf : ∀ lexeme ∈ lexemes source, lexeme.problem = none)
    (hq : ∀ lexeme ∈ lexemes source, lexeme.kind ≠ .string → '"' ∉ lexeme.text)
    (hs : source = front ++ c :: back) (hb : isBlank c = false) (hc : c ≠ '"')
    (hfront : ∀ d ∈ front.getLast?, d = ' ') (he : Even (front.count '"')) :
    ∃ rest, Lexeme.read c rest ∈ lexemes source := by
  fun_induction lexemes source generalizing front with
  | case1 source h =>
    have hm : c ∈ source := hs ▸ List.mem_append_right _ List.mem_cons_self
    rw [List.dropWhile_eq_nil_iff.1 h c hm] at hb
    cases hb
  | case2 source first rest h ih =>
    obtain ⟨hp, hf⟩ := List.forall_mem_cons.1 hf
    obtain ⟨hqfirst, hq⟩ := List.forall_mem_cons.1 hq
    obtain ⟨blanks, hblanks, hsplit⟩ := exists_split h (isClosed_of_faultless hp)
    have hfirst : isBlank first = false := isBlank_of_trimLeft h
    have hcount : blanks.count '"' = 0 :=
      List.count_eq_zero.2 fun hm => absurd (hblanks _ hm) (by decide)
    have hhead {left tail : List Char} (hl : (Lexeme.read first rest).source ++ left = c :: tail) :
        ∃ rest', Lexeme.read c rest' ∈ Lexeme.read first rest ::
          lexemes (rest.drop (Lexeme.read first rest).more) := by
      rw [← Lexeme.take_read (isClosed_of_faultless hp)] at hl
      cases (List.cons.inj hl).1
      exact ⟨rest, List.mem_cons_self⟩
    have hlast {more left : List Char} (hm : front = left ++ more) :
        ∀ d ∈ more.getLast?, d = ' ' := by
      intro d hd
      refine hfront d ?_
      rw [hm, List.getLast?_append_of_ne_nil left (by rintro rfl; cases hd)]
      exact hd
    rcases List.append_eq_append_iff.1 (hsplit.symm.trans hs) with
      ⟨middle, hm, hrest⟩ | ⟨middle, hm, hrest⟩
    · rw [hm, List.count_append, hcount, Nat.zero_add] at he
      rcases List.append_eq_append_iff.1 hrest with ⟨more, rfl, hleft⟩ | ⟨more, hl, hleft⟩
      · -- the character comes after the lexeme
        rw [List.count_append, Nat.even_add] at he
        rw [← List.append_assoc] at hm
        obtain ⟨rest', hr⟩ :=
          ih hf hq hleft (hlast hm) (he.1 (Lexeme.even_source hqfirst))
        exact ⟨rest', List.mem_cons_of_mem _ hr⟩
      · cases more with
        | nil =>
          have hleft : rest.drop (Lexeme.read first rest).more = [] ++ c :: back := hleft.symm
          obtain ⟨rest', hr⟩ := ih hf hq hleft (by simp) (by decide)
          exact ⟨rest', List.mem_cons_of_mem _ hr⟩
        | cons d more =>
          obtain ⟨rfl, -⟩ := List.cons.inj hleft
          cases hn : middle with
          | nil =>
            rw [hn] at hl
            exact hhead (congrArg (· ++ []) hl)
          | cons e tail =>
            have hsp : ' ' ∈ middle := by
              have hne : middle ≠ [] := hn ▸ List.cons_ne_nil e tail
              have hd := List.getLast?_eq_some_getLast hne
              exact hlast hm _ hd ▸ List.getLast_mem hne
            exact absurd he (Nat.not_even_iff_odd.2 (Lexeme.odd_of_space hl hfirst hc hsp))
    · cases middle with
      | nil => exact hhead hrest.symm
      | cons d middle =>
        obtain ⟨rfl, -⟩ := List.cons.inj hrest
        have hblank := hblanks c (hm ▸ List.mem_append_right _ List.mem_cons_self)
        rw [hb] at hblank
        cases hblank

end FormulaScript.Token
