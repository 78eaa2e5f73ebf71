import FormulaScript.Proofs.Token.Names

/-!
# Tokens tile their text

From the start of a text to its first NUL, the tokens cover all characters but the blanks between
them. Each stands where its position says, and its location is that of its position. Only a string
that runs to the end may lack its closing quote.
-/

namespace FormulaScript

open Text

/-! ## Locations -/

/-- The location is the one after a text: it counts the lines, and the characters from the last
newline on, or from the start of the text. -/
structure Location.IsAfter (location : Location) (text : List Char) : Prop where
  line : location.line = 1 + text.count '\n'
  column : ∀ front back, text = front ++ '\n' :: back → '\n' ∉ back →
    location.column = text.length - front.length
  first : '\n' ∉ text → location.column = text.length + 1

/-- The location after a text that starts at the first line and column. -/
def Location.ofText (text : List Char) : Location := Location.advance {} text

theorem Location.ofText_append (front back : List Char) :
    ofText (front ++ back) = (ofText front).advance back := List.foldl_append

theorem Location.isAfter_ofText (text : List Char) : (ofText text).IsAfter text := by
  induction text using List.reverseRecOn with
  | nil => exact ⟨rfl, by simp, fun _ => rfl⟩
  | append_singleton text c ih =>
    have hc : ofText (text ++ [c]) = (ofText text).after c := ofText_append text [c]
    rw [hc, Location.after]
    split
    · next h =>
      subst h
      refine ⟨?_, fun front back h hb => ?_, by simp⟩
      · rw [List.count_append, ih.line]
        rfl
      · cases back using List.reverseRecOn with
        | nil => simp [(List.append_inj' h rfl).1]
        | append_singleton back d =>
          rw [← List.cons_append, ← List.append_assoc] at h
          cases (List.append_inj' h rfl).2
          simp at hb
    · next hne =>
      refine ⟨?_, fun front back h hb => ?_, fun hn => ?_⟩
      · simp [List.count_append, ih.line, hne]
      · cases back using List.reverseRecOn with
        | nil => exact absurd (List.singleton_inj.1 (List.append_inj' h rfl).2) hne
        | append_singleton back d =>
          rw [← List.cons_append, ← List.append_assoc] at h
          obtain ⟨rfl, -⟩ := List.append_inj' h rfl
          have hcolumn := ih.column front back rfl fun hm => hb (List.mem_append_left _ hm)
          dsimp only
          simp only [List.length_append, List.length_cons, List.length_nil] at hcolumn ⊢
          omega
      · have hfirst := ih.first fun hm => hn (List.mem_append_left _ hm)
        simpa using hfirst

namespace Token

/-! ## Words -/

/-- The characters of a token as they are written, those of a string in quotes. -/
def written (t : Token) : List Char :=
  match t.kind with
  | .string => '"' :: t.text.toList ++ ['"']
  | _ => t.text.toList

/-- Where the characters of a token end in a text of `n` characters, be it that the text ends before
the closing quote. -/
def stop (n : Nat) (t : Token) : Nat := min (t.position + t.written.length) n

theorem Lexeme.written_token (lexeme : Lexeme) (position : Nat) (location : Location) :
    (lexeme.token position location).written = lexeme.source := by
  obtain ⟨kind, text, more, problem⟩ := lexeme
  cases kind <;> simp [token, written, source, String.toList_ofList]

/-! ## Tiles -/

/-- The tokens and problems of a source that comes after a text: blanks, then the characters of a
token, and so on to the end of the source. -/
inductive Tiles : List Char → List Char → List Token → List Diagnostic → Prop
  | finish : (∀ c ∈ blanks, isBlank c) →
      Tiles before blanks [⟨.finish, "", (before ++ blanks).length, .ofText (before ++ blanks)⟩] []
  | token : (∀ c ∈ blanks, isBlank c) →
      Tiles (before ++ blanks ++ first :: rest.take (Lexeme.read first rest).more)
        (rest.drop (Lexeme.read first rest).more) tokens problems →
      Tiles before (blanks ++ first :: rest)
        ((Lexeme.read first rest).token (before ++ blanks).length (.ofText (before ++ blanks)) ::
          tokens)
        ((Lexeme.read first rest).diagnostics (before ++ blanks).length ++ problems)

variable {before source rest : List Char} {first : Char} {tokens : List Token}
  {problems : List Diagnostic} {t : Token}

theorem tiles_scanFrom (before source : List Char) :
    Tiles before source (scanFrom before.length (.ofText before) source).1
      (scanFrom before.length (.ofText before) source).2 := by
  generalize hp : before.length = position
  generalize hl : Location.ofText before = location
  fun_induction scanFrom position location source generalizing before with
  | case1 position location source blanks start place h =>
    have hb : ∀ c ∈ source, isBlank c := List.dropWhile_eq_nil_iff.1 h
    have hs : blanks = source := List.takeWhile_eq_self_iff.2 hb
    have hstart : start = (before ++ source).length := by
      rw [List.length_append, hp, ← hs]
    have hplace : place = .ofText (before ++ source) := by
      rw [Location.ofText_append, hl, ← hs]
    rw [hstart, hplace]
    exact .finish hb
  | case2 position location source blanks start place first rest h lexeme token diagnostics tokens
      others heq ih =>
    have hb : ∀ c ∈ blanks, isBlank c := fun c hc => by
      simpa using List.all_eq_true.1 List.all_takeWhile c hc
    have hs : source = blanks ++ first :: rest := by
      rw [← h]
      exact List.takeWhile_append_dropWhile.symm
    have hstart : start = (before ++ blanks).length := by rw [List.length_append, hp]
    have hplace : place = .ofText (before ++ blanks) := by rw [Location.ofText_append, hl]
    have hmore : lexeme.more ≤ rest.length := Lexeme.more_read_le first rest
    have hnext := ih (before ++ blanks ++ first :: rest.take lexeme.more)
      (by simp [hstart, hmore]; omega) (by rw [Location.ofText_append, hplace])
    rw [heq] at hnext
    rw [hs]
    simp only [token, diagnostics, hstart, hplace]
    exact .token hb hnext

theorem stop_token (position : Nat) (first : Char) (rest : List Char) (location : Location) :
    ((Lexeme.read first rest).token position location).stop (position + (rest.length + 1)) =
      position + ((Lexeme.read first rest).more + 1) := by
  have hmore := Lexeme.more_read_le first rest
  unfold stop
  rw [Lexeme.written_token]
  rcases isClosed_or_eq first rest with hc | ⟨rfl, hu⟩
  · rw [← Lexeme.take_read hc]
    simp only [Lexeme.token, List.length_cons, List.length_take]
    omega
  · rw [hu]
    simp [Lexeme.source, Lexeme.token]

theorem stop_read (front : List Char) (first : Char) (rest : List Char) (location : Location) :
    ((Lexeme.read first rest).token front.length location).stop (front ++ first :: rest).length =
      (front ++ first :: rest.take (Lexeme.read first rest).more).length := by
  have hmore := Lexeme.more_read_le first rest
  rw [List.length_append, List.length_append, List.length_cons, List.length_cons, stop_token,
    List.length_take, Nat.min_eq_left hmore]

namespace Tiles

theorem exists_finish (h : Tiles before source tokens problems) :
    ∃ ts last, tokens = ts ++ [last] ∧ (∀ t ∈ ts, t.isFinish = false) ∧ last.isFinish ∧
      last.position = (before ++ source).length ∧ last.location = .ofText (before ++ source) := by
  induction h with
  | finish => exact ⟨[], _, rfl, List.forall_mem_nil _, rfl, rfl, rfl⟩
  | token _ _ ih =>
    obtain ⟨ts, last, rfl, hts, hl, hp, ho⟩ := ih
    refine ⟨_ :: ts, last, rfl, List.forall_mem_cons.2
      ⟨isFinish_eq_false Lexeme.kind_read_ne_finish, hts⟩, hl, ?_, ?_⟩
    · rw [hp]
      simp
    · rw [ho]
      simp

/-- A token is read where it stands. -/
theorem exists_read (h : Tiles before source tokens problems) (ht : t ∈ tokens)
    (hf : t.isFinish = false) : ∃ front first rest, before ++ source = front ++ first :: rest ∧
      t = (Lexeme.read first rest).token front.length (.ofText front) ∧
      (Lexeme.read first rest).diagnostics front.length ⊆ problems := by
  induction h with
  | finish =>
    rw [List.mem_singleton] at ht
    rw [ht] at hf
    cases hf
  | token _ _ ih =>
    rcases List.mem_cons.1 ht with rfl | ht
    · exact ⟨_, _, _, (List.append_assoc ..).symm, rfl, List.subset_append_left _ _⟩
    · obtain ⟨front, first, rest, hs, he, hd⟩ := ih ht
      exact ⟨front, first, rest, by simpa using hs, he, fun d hm =>
        List.mem_append_right _ (hd hm)⟩

theorem le_position (h : Tiles before source tokens problems) (ht : t ∈ tokens) :
    before.length ≤ t.position := by
  induction h with
  | finish =>
    rw [List.mem_singleton.1 ht]
    simp
  | token _ _ ih =>
    rcases List.mem_cons.1 ht with rfl | ht
    · simp [Lexeme.token]
    · have hle := ih ht
      simp only [List.length_append] at hle
      omega

theorem pairwise (h : Tiles before source tokens problems) :
    tokens.Pairwise fun t u => t.stop (before ++ source).length ≤ u.position := by
  induction h with
  | finish => exact List.pairwise_singleton _ _
  | @token blanks before first rest tokens problems _ hr ih =>
    refine List.pairwise_cons.2 ⟨fun u hu => ?_, by simpa using ih⟩
    rw [← List.append_assoc, stop_read]
    exact hr.le_position hu

theorem increasing (h : Tiles before source tokens problems) :
    tokens.Pairwise (·.position < ·.position) := by
  induction h with
  | finish => exact List.pairwise_singleton _ _
  | token _ hr ih =>
    refine List.pairwise_cons.2 ⟨fun u hu => ?_, ih⟩
    have hle := hr.le_position hu
    simp only [List.length_append, List.length_cons, Lexeme.token] at hle ⊢
    omega

/-- What no token covers is blank. -/
theorem isBlank_of_uncovered (h : Tiles before source tokens problems) {i : Nat}
    (hi : before.length ≤ i) (hc : (before ++ source)[i]? = some c)
    (hu : ∀ t ∈ tokens, i < t.position ∨ t.stop (before ++ source).length ≤ i) : isBlank c := by
  induction h with
  | finish hb =>
    rw [List.getElem?_append_right hi] at hc
    exact hb c (List.mem_of_getElem? hc)
  | @token blanks before first rest tokens problems hb hr ih =>
    obtain ⟨ht, hu⟩ := List.forall_mem_cons.1 hu
    rw [← List.append_assoc, stop_read] at ht
    rcases ht with ht | ht
    · rw [List.getElem?_append_right hi, List.getElem?_append_left] at hc
      · exact hb c (List.mem_of_getElem? hc)
      · simp only [Lexeme.token, List.length_append] at ht
        omega
    · exact ih ht (by simpa using hc) (by simpa using hu)

/-- A token covers its characters from its position on. Of a string that runs to the end and lacks
its closing quote this is reported. -/
theorem covers (h : Tiles [] source tokens problems) (ht : t ∈ tokens) (hf : t.isFinish = false) :
    t.position < t.stop source.length ∧
      (t.written <+: source.drop t.position ∨
        t.kind = .string ∧ t.stop source.length = source.length ∧
          source.drop t.position = '"' :: t.text.toList ∧
          ⟨.unbalancedQuotes, none, some t.position⟩ ∈ problems) := by
  obtain ⟨front, first, rest, rfl, rfl, hd⟩ := h.exists_read ht hf
  rw [stop_read]
  refine ⟨by simp [Lexeme.token], ?_⟩
  have hdrop : (front ++ first :: rest).drop front.length = first :: rest := List.drop_left
  rw [Lexeme.written_token]
  rcases isClosed_or_eq first rest with hc | ⟨rfl, hu⟩
  · refine .inl ?_
    rw [← Lexeme.take_read hc]
    change _ <+: (front ++ first :: rest).drop front.length
    rw [hdrop]
    exact List.cons_prefix_cons.2 ⟨rfl, List.take_prefix _ _⟩
  · rw [hu] at hd ⊢
    refine .inr ⟨rfl, by simp, ?_, hd (List.mem_singleton_self _)⟩
    rw [Lexeme.token, String.toList_ofList]
    exact hdrop

theorem isAfter_location (h : Tiles [] source tokens problems) (ht : t ∈ tokens) :
    t.location.IsAfter (source.take t.position) := by
  obtain ⟨ts, last, rfl, hts, -, hp, ho⟩ := h.exists_finish
  rcases List.mem_append.1 ht with hm | hm
  · obtain ⟨front, first, rest, rfl, rfl, -⟩ := h.exists_read ht (hts t hm)
    have htake : (front ++ first :: rest).take front.length = front := List.take_left
    change (Location.ofText front).IsAfter ((front ++ first :: rest).take front.length)
    rw [htake]
    exact Location.isAfter_ofText front
  · rw [List.mem_singleton.1 hm, hp, ho, List.nil_append, List.take_length]
    exact Location.isAfter_ofText source

end Tiles

/-! ## Texts -/

theorem beforeNul_eq_take (text : List Char) :
    beforeNul text = text.take (text.findIdx (· = '\x00')) := by
  rw [beforeNul, List.takeWhile_eq_take_findIdx_not]
  simp

/-- The tokens of a text are some that do not end it and one that does, at the first NUL or at the
end of the text. The others cover some characters each, in order and without an overlap, and what
they leave out is blank. Only the last of them may be a string without a closing quote, which is
reported. The line of each token counts the newlines before it, and its column the characters from
the last of these on. -/
theorem tokens_tile (text : List Char) :
    let n := text.findIdx (· = '\x00')
    let source := text.take n
    ∃ ts last, (scan text).1 = ts ++ [last] ∧ (∀ t ∈ ts, t.isFinish = false) ∧
      last.isFinish ∧ last.position = n ∧
      (∀ t ∈ ts, t.position < t.stop n ∧ t.stop n ≤ n ∧
        (t.written <+: source.drop t.position ∨
          t.kind = .string ∧ ts.getLast? = some t ∧ t.stop n = n ∧
            source.drop t.position = '"' :: t.text.toList ∧
            ⟨.unbalancedQuotes, none, some t.position⟩ ∈ (scan text).2)) ∧
      ts.Pairwise (fun t u => t.stop n ≤ u.position) ∧
      (∀ i c, source[i]? = some c → (∀ t ∈ ts, i < t.position ∨ t.stop n ≤ i) → isBlank c) ∧
      ∀ t ∈ ts ++ [last], t.location.IsAfter (source.take t.position) := by
  intro n source
  have h : Tiles [] source (scan text).1 (scan text).2 := by
    have hsource : source = beforeNul text := (beforeNul_eq_take text).symm
    rw [hsource]
    exact tiles_scanFrom [] (beforeNul text)
  have hn : source.length = n := List.length_take_of_le List.findIdx_le_length
  obtain ⟨ts, last, htokens, hts, hl, hp, -⟩ := h.exists_finish
  rw [htokens] at h
  have hpair := h.pairwise
  rw [List.nil_append, hn] at hp hpair
  obtain ⟨hpair, -, hlast⟩ := List.pairwise_append.1 hpair
  have hstop (t : Token) : t.stop n ≤ n := Nat.min_le_right _ _
  have hcovers : ∀ t ∈ ts, _ := fun t ht => hn ▸ h.covers (List.mem_append_left _ ht) (hts t ht)
  refine ⟨ts, last, htokens, hts, hl, hp, fun t ht => ?_, hpair, fun i c hc hu => ?_, fun t ht =>
    h.isAfter_location ht⟩
  · obtain ⟨hlt, hw⟩ := hcovers t ht
    refine ⟨hlt, hstop t, hw.imp_right fun ⟨hk, hs, ht', hr⟩ => ⟨hk, ?_, hs, ht', hr⟩⟩
    -- a token after it would start before the end of the text
    obtain ⟨front, back, rfl⟩ := List.append_of_mem ht
    cases back with
    | nil => exact List.getLast?_concat
    | cons u back =>
      have hle := (List.pairwise_cons.1 (List.pairwise_append.1 hpair).2.1).1 u List.mem_cons_self
      have hu := (hcovers u (by simp)).1
      have hun := hstop u
      omega
  · refine h.isBlank_of_uncovered (Nat.zero_le i) hc (List.forall_mem_append.2 ⟨?_, ?_⟩)
    · simpa [hn] using hu
    · have hi := (List.getElem?_eq_some_iff.1 hc).1
      exact List.forall_mem_singleton.2 (.inl (by omega))

end Token

end FormulaScript
