import FormulaScript.Proofs.Script.Written
import FormulaScript.Proofs.Text.Blank

/-!
# The units of a written script
-/

namespace FormulaScript.Script

open Text

variable {pending rest text : List Char} {line : Nat}

/-! ## Flushing -/

theorem flush_of_blank (h : ∀ c ∈ pending, isBlank c) (line : Nat) : flush line pending = [] := by
  rw [flush, trim_of_blank (by simpa using h)]
  rfl

theorem flush_append_of_blank {blanks : List Char} (h : ∀ c ∈ blanks, isBlank c) (line : Nat)
    (pending : List Char) : flush line (blanks ++ pending) = flush line pending := by
  rw [flush, List.reverse_append, trim_append_of_blank (by simpa using h)]
  rfl

/-- The unit of a text after blanks that ends with another character. -/
theorem flush_cons {blanks : List Char} (hb : ∀ c ∈ blanks, isBlank c)
    (hl : isBlank last = false) (line : Nat) (text : List Char) :
    flush line (last :: text.reverse ++ blanks) = [⟨line, trimLeft text ++ [last]⟩] := by
  have ht : trim (last :: text.reverse ++ blanks).reverse = trimLeft text ++ [last] := by
    rw [List.reverse_append, List.reverse_cons, List.reverse_reverse, trim,
      trimLeft_append_of_blank (by simpa using hb), trimLeft_append hl, trimRight_append hl]
  have hne : (trimLeft text ++ [last]).isEmpty = false := by simp
  rw [flush, ht]
  simp [hne]

/-- A unit that ends with a semicolon. -/
theorem flush_semicolon (line : Nat) (pending : List Char) :
    flush line (';' :: pending) = [⟨line, trimLeft pending.reverse ++ [';']⟩] := by
  have hf := flush_cons (List.forall_mem_nil _) (by decide : isBlank ';' = false) line
    pending.reverse
  rwa [List.reverse_reverse, List.append_nil] at hf

/-- What is flushed is a trimmed text. -/
theorem trim_of_mem_flush {unit : SourceUnit} (h : unit ∈ flush line pending) :
    unit.text ≠ [] ∧ trim unit.text = unit.text := by
  unfold flush at h
  dsimp only at h
  split at h
  · cases h
  · next he =>
    cases List.mem_singleton.1 h
    exact ⟨fun hn => he (List.isEmpty_iff.2 hn), trim_trim pending.reverse⟩

/-! ## Characters -/

/-- The characters that structure a script, apart from those of comments of more than one. -/
def structural : List Char := ['\n', '"', '#', '{', '}', ';']

theorem unitsFrom_cons (hc : c ∉ structural)
    (hs : c = '/' → ∀ d ∈ rest.head?, d ≠ '/' ∧ d ≠ '*') :
    unitsFrom .code pending line (c :: rest) = unitsFrom .code (push pending c) line rest := by
  simp only [structural, List.mem_cons, List.not_mem_nil, or_false, not_or] at hc
  obtain ⟨h₁, h₂, h₃, h₄, h₅, h₆⟩ := hc
  rw [unitsFrom.eq_def]
  split
  all_goals simp_all

theorem unitsFrom_newline (mode : Mode) :
    unitsFrom mode pending line ('\n' :: rest) =
      flush line pending ++ unitsFrom mode.nextLine [] (line + 1) rest := by
  cases mode <;> rw [unitsFrom]

theorem unitsFrom_opening : unitsFrom .code pending line ('{' :: rest) =
    flush line pending ++ ⟨line, openingBrace⟩ :: unitsFrom .code [] line rest := by
  rw [unitsFrom] <;> simp [openingBrace]

theorem unitsFrom_closing : unitsFrom .code pending line ('}' :: rest) =
    flush line pending ++ ⟨line, closingBrace⟩ :: unitsFrom .code [] line rest := by
  rw [unitsFrom] <;> simp [closingBrace]

theorem unitsFrom_semicolon : unitsFrom .code pending line (';' :: rest) =
    flush line (';' :: pending) ++ unitsFrom .code [] line rest := by
  rw [unitsFrom] <;> simp

theorem unitsFrom_comment (hc : c ≠ '\n') (hs : c = '*' → ∀ d ∈ rest.head?, d ≠ '/') :
    unitsFrom .blockComment pending line (c :: rest) =
      unitsFrom .blockComment pending line rest := by
  rw [unitsFrom.eq_def]
  split
  all_goals simp_all

theorem unitsFrom_lineComment (hc : c ≠ '\n') :
    unitsFrom .lineComment pending line (c :: rest) =
      unitsFrom .lineComment pending line rest := by
  rw [unitsFrom.eq_def]
  split
  all_goals simp_all

/-! ## Comments -/

/-- The end of a line comment is the end of its line, which is read alike in code. -/
theorem unitsFrom_lineComment_append (hb : '\n' ∉ body) (hr : ∀ c ∈ rest.head?, c = '\n')
    (pending : List Char) (line : Nat) :
    unitsFrom .lineComment pending line (body ++ rest) = unitsFrom .code pending line rest := by
  induction body with
  | nil =>
    cases rest with
    | nil => rw [List.nil_append, unitsFrom, unitsFrom]
    | cons c rest =>
      cases hr c rfl
      rw [List.nil_append, unitsFrom_newline, unitsFrom_newline]
      rfl
  | cons c body ih =>
    obtain ⟨hc, hb⟩ := not_or.1 (mt List.mem_cons.2 hb)
    rw [List.cons_append, unitsFrom_lineComment (Ne.symm hc), ih hb]

/-- Of a block comment its line feeds are left. -/
theorem unitsFrom_blockComment_append (hb : ¬ ['*', '/'] <:+: body) (pending : List Char)
    (line : Nat) : unitsFrom .blockComment pending line (body ++ '*' :: '/' :: rest) =
      unitsFrom .code pending line (List.replicate (body.count '\n') '\n' ++ rest) := by
  induction body generalizing pending line with
  | nil => rw [List.nil_append, unitsFrom, List.count_nil, List.replicate_zero, List.nil_append]
  | cons c body ih =>
    have ih := ih fun hi => hb (hi.trans (List.suffix_cons c body).isInfix)
    by_cases hn : c = '\n'
    · subst hn
      rw [List.cons_append, unitsFrom_newline, List.count_cons_self, List.replicate_succ,
        List.cons_append, unitsFrom_newline]
      exact congrArg _ (ih [] (line + 1))
    · have hs : c = '*' → ∀ d ∈ (body ++ '*' :: '/' :: rest).head?, d ≠ '/' := by
        rintro rfl d hd rfl
        cases body with
        | nil => cases hd
        | cons d body =>
          cases hd
          exact hb (List.prefix_append ['*', '/'] body).isInfix
      rw [List.cons_append, unitsFrom_comment hn hs, ih, List.count_cons_of_ne hn]

/-! ## Runs of characters -/

/-- The text with one space for every run of spaces and tabs, and none for one that it starts with
if it is to be skipped. -/
def squeeze : Bool → List Char → List Char
  | _, [] => []
  | skip, c :: text =>
    if c = ' ' ∨ c = '\t' then (if skip then [] else [' ']) ++ squeeze true text
    else c :: squeeze false text

/-- Whether blanks are left out after the reversed characters of a unit. -/
def atBlank (pending : List Char) : Bool := pending.isEmpty || pending.head? = some ' '

theorem push_space (hc : c = ' ' ∨ c = '\t') (pending : List Char) :
    push pending c = if atBlank pending then pending else ' ' :: pending := by
  have hs : (c = ' ' || c = '\t' || c = '\r') = true := by
    rcases hc with rfl | rfl <;> rfl
  unfold push
  rw [if_pos hs]
  rfl

theorem push_char (hs : ¬ (c = ' ' ∨ c = '\t')) (hr : c ≠ '\r') (pending : List Char) :
    push pending c = c :: pending := by
  rw [not_or] at hs
  simp [push, hs, hr]

theorem push_of_not_blank (h : isBlank c = false) (pending : List Char) :
    push pending c = c :: pending := by
  have hne {d : Char} (hd : isBlank d) : c ≠ d := by
    rintro rfl
    rw [h] at hd
    cases hd
  exact push_char (not_or.2 ⟨hne (by decide), hne (by decide)⟩) (hne (by decide)) pending

theorem foldl_push (hb : ∀ c ∈ text, isBlank c → c = ' ' ∨ c = '\t') (pending : List Char) :
    text.foldl push pending = (squeeze (atBlank pending) text).reverse ++ pending := by
  induction text generalizing pending with
  | nil => rfl
  | cons c text ih =>
    obtain ⟨hc, hb⟩ := List.forall_mem_cons.1 hb
    rw [List.foldl_cons, ih hb]
    by_cases hs : c = ' ' ∨ c = '\t'
    · rw [push_space hs, squeeze, if_pos hs]
      cases ha : atBlank pending with
      | true => simp [ha]
      | false => simp [atBlank]
    · have hr : c ≠ '\r' := fun hr => hs (hc (hr ▸ by decide))
      have ha : atBlank (c :: pending) = false := by simp [atBlank, (not_or.1 hs).1]
      rw [push_char hs hr, squeeze, if_neg hs, ha]
      simp

theorem trimLeft_squeeze (hb : ∀ c ∈ text, isBlank c → c = ' ' ∨ c = '\t') (skip : Bool) :
    trimLeft (squeeze skip text) = squeeze false (trimLeft text) := by
  induction text generalizing skip with
  | nil => rfl
  | cons c text ih =>
    obtain ⟨hc, hb⟩ := List.forall_mem_cons.1 hb
    by_cases hs : c = ' ' ∨ c = '\t'
    · have hcb : ∀ d ∈ [c], isBlank d := by
        rw [List.forall_mem_singleton]
        rcases hs with rfl | rfl <;> decide
      have hsb : ∀ d ∈ if skip then [] else [' '], isBlank d := by
        cases skip with
        | true => exact List.forall_mem_nil _
        | false => exact List.forall_mem_singleton.2 (by decide)
      have ht : trimLeft (c :: text) = trimLeft text := trimLeft_append_of_blank hcb text
      rw [squeeze, if_pos hs, trimLeft_append_of_blank hsb, ih hb, ht]
    · have hn : isBlank c = false := Bool.eq_false_iff.2 fun h => hs (hc h)
      rw [squeeze, if_neg hs, trimLeft_cons hn, trimLeft_cons hn, squeeze, if_neg hs]

/-- The text has no character that structures a script, and no comment. -/
structure Bare (text : List Char) : Prop where
  symbols : ∀ c ∈ text, c ∉ structural
  comments : ¬ ['/', '/'] <:+: text ∧ ¬ ['/', '*'] <:+: text

instance (text : List Char) : Decidable (Bare text) :=
  decidable_of_iff (text.all (· ∉ structural) ∧ ¬ ['/', '/'] <:+: text ∧ ¬ ['/', '*'] <:+: text)
    (by
      simp only [List.all_eq_true, decide_eq_true_eq]
      exact ⟨fun ⟨hs, hc⟩ => ⟨hs, hc⟩, fun h => ⟨h.symbols, h.comments⟩⟩)

theorem Plain.suffix {part : List Char} (h : Plain text) (hs : part <:+ text) : Plain part where
  blanks c hc := h.blanks c (hs.subset hc)
  symbols c hc := h.symbols c (hs.subset hc)
  comments :=
    ⟨fun hi => h.comments.1 (hi.trans hs.isInfix), fun hi => h.comments.2 (hi.trans hs.isInfix)⟩

theorem Plain.not_structural (h : Plain text) : ∀ c ∈ text, c ∉ structural := by
  intro c hc
  have hn : c ≠ '\n' := by
    rintro rfl
    exact absurd (h.blanks _ hc (by decide)) (by decide)
  have hs := h.symbols c hc
  simp_all [structural]

theorem Plain.bare (h : Plain text) : Bare text := ⟨h.not_structural, h.comments⟩

theorem Bare.tail (h : Bare (c :: text)) : Bare text where
  symbols := (List.forall_mem_cons.1 h.symbols).2
  comments :=
    have hs := (List.suffix_cons c text).isInfix
    ⟨fun hi => h.comments.1 (hi.trans hs), fun hi => h.comments.2 (hi.trans hs)⟩

/-- Bare characters of code are pushed one after another, if no comment starts at their end. -/
theorem unitsFrom_run (h : Bare text) (hr : ∀ c ∈ rest.head?, c ≠ '/' ∧ c ≠ '*') :
    unitsFrom .code pending line (text ++ rest) =
      unitsFrom .code (text.foldl push pending) line rest := by
  induction text generalizing pending with
  | nil => rfl
  | cons c text ih =>
    have hs : c = '/' → ∀ d ∈ (text ++ rest).head?, d ≠ '/' ∧ d ≠ '*' := by
      rintro rfl d hd
      cases text with
      | nil => exact hr d hd
      | cons d' text =>
        cases hd
        refine ⟨?_, ?_⟩
        · rintro rfl
          exact h.comments.1 (List.prefix_append ['/', '/'] text).isInfix
        · rintro rfl
          exact h.comments.2 (List.prefix_append ['/', '*'] text).isInfix
    rw [List.cons_append, unitsFrom_cons (h.symbols c List.mem_cons_self) hs, ih h.tail,
      List.foldl_cons]

/-! ## Gaps -/

/-- From a text in a mode the reading comes to the rest of it as code. What was pending is either
still pending, or has ended with its line; nothing but blanks comes after it. -/
def Skips (mode : Mode) (text rest : List Char) : Prop :=
  ∀ pending line,
    (∃ blanks, (∀ c ∈ blanks, isBlank c) ∧
      unitsFrom mode pending line text = unitsFrom .code (blanks ++ pending) line rest) ∨
    ∃ blanks line', (∀ c ∈ blanks, isBlank c) ∧
      unitsFrom mode pending line text = flush line pending ++ unitsFrom .code blanks line' rest

theorem Skips.refl (text : List Char) : Skips .code text text := fun _ _ =>
  .inl ⟨[], by simp, rfl⟩

theorem Skips.newline {mode : Mode} (h : Skips mode.nextLine text rest) :
    Skips mode ('\n' :: text) rest := fun pending line => by
  rw [unitsFrom_newline]
  rcases h [] (line + 1) with ⟨blanks, hb, he⟩ | ⟨blanks, line', hb, he⟩
  · refine .inr ⟨blanks, line + 1, hb, ?_⟩
    rw [he, List.append_nil]
  · have hf : flush (line + 1) [] = [] := rfl
    refine .inr ⟨blanks, line', hb, ?_⟩
    rw [he, hf, List.nil_append]

theorem exists_push (pending : List Char) (h : isBlank c) :
    ∃ blanks, (∀ c ∈ blanks, isBlank c) ∧ push pending c = blanks ++ pending := by
  unfold push
  split
  · split
    · exact ⟨[], by simp, rfl⟩
    · exact ⟨[' '], by simp; decide, rfl⟩
  · exact ⟨[c], by simpa using h, rfl⟩

theorem Skips.blank (h : Skips .code text rest) (hb : isBlank c) :
    Skips .code (c :: text) rest := fun pending line => by
  by_cases hn : c = '\n'
  · subst hn
    have hn : Skips (Mode.nextLine .code) text rest := h
    exact hn.newline pending line
  · have hne {d : Char} (hd : isBlank d = false) : c ≠ d := by
      rintro rfl
      rw [hb] at hd
      cases hd
    have hc : c ∉ structural := by
      simp only [structural, List.mem_cons, List.not_mem_nil, or_false, not_or]
      exact ⟨hn, hne (by decide), hne (by decide), hne (by decide), hne (by decide),
        hne (by decide)⟩
    obtain ⟨before, hbefore, hp⟩ := exists_push pending hb
    -- a blank that is pushed stays in front of the unit until it is flushed, and is trimmed then
    rw [unitsFrom_cons hc fun he => absurd he (hne (by decide)), hp]
    rcases h (before ++ pending) line with ⟨blanks, hb, he⟩ | ⟨blanks, line', hb, he⟩
    · refine .inl ⟨blanks ++ before, List.forall_mem_append.2 ⟨hb, hbefore⟩, ?_⟩
      rw [he, List.append_assoc]
    · refine .inr ⟨blanks, line', hb, ?_⟩
      rw [he, flush_append_of_blank hbefore]

theorem Skips.blanks {blanks : List Char} (hb : ∀ c ∈ blanks, isBlank c)
    (h : Skips .code text rest) : Skips .code (blanks ++ text) rest := by
  induction blanks with
  | nil => exact h
  | cons c blanks ih =>
    obtain ⟨hc, hb⟩ := List.forall_mem_cons.1 hb
    exact (ih hb).blank hc

theorem Skips.comment (hb : ¬ ['*', '/'] <:+: body) (h : Skips .code text rest) :
    Skips .blockComment (body ++ '*' :: '/' :: text) rest := fun pending line => by
  rw [unitsFrom_blockComment_append hb]
  refine h.blanks (fun c hc => ?_) pending line
  rw [List.eq_of_mem_replicate hc]
  decide

theorem Skips.lineComment (hb : '\n' ∉ body) (h : Skips .code text rest) :
    Skips .lineComment (body ++ '\n' :: text) rest := fun pending line => by
  have hn : Skips (Mode.nextLine .code) text rest := h
  rw [unitsFrom_lineComment_append hb (by simp)]
  exact hn.newline pending line

theorem Gap.skips (h : Gap gap) (rest : List Char) : Skips .code (gap ++ rest) rest := by
  induction h with
  | nil => exact .refl rest
  | blank hb _ ih => exact ih.blank hb
  | @block body gap hb _ ih =>
    intro pending line
    have he : unitsFrom .code pending line ('/' :: '*' :: body ++ '*' :: '/' :: gap ++ rest) =
        unitsFrom .blockComment pending line (body ++ '*' :: '/' :: (gap ++ rest)) := by
      simp [unitsFrom]
    exact he ▸ ih.comment hb pending line
  | @line body gap hb _ ih =>
    intro pending line
    have he : unitsFrom .code pending line ('/' :: '/' :: body ++ '\n' :: gap ++ rest) =
        unitsFrom .lineComment pending line (body ++ '\n' :: (gap ++ rest)) := by
      simp [unitsFrom]
    exact he ▸ ih.lineComment hb pending line
  | @hash body gap hb _ ih =>
    intro pending line
    have he : unitsFrom .code pending line ('#' :: body ++ '\n' :: gap ++ rest) =
        unitsFrom .lineComment pending line (body ++ '\n' :: (gap ++ rest)) := by
      simp [unitsFrom]
    exact he ▸ ih.lineComment hb pending line

/-! ## Keywords and conditions -/

def keywords : List String := ["if", "while", "else", "else if"]

theorem squeeze_keyword : ∀ word ∈ keywords, ∀ skip, squeeze skip word.toList = word.toList := by
  decide

theorem keyword_characters (h : word ∈ keywords) : ∀ c ∈ word.toList,
    (c ∉ structural ∧ c ≠ '/') ∧ (isBlank c → c = ' ' ∨ c = '\t') := by
  have hall : ∀ word ∈ keywords, word.toList.all fun c =>
      (c ∉ structural ∧ c ≠ '/') ∧ (isBlank c → c = ' ' ∨ c = '\t') := by
    decide
  exact fun c hc => of_decide_eq_true (List.all_eq_true.1 (hall word h) c hc)

theorem unitsFrom_append (h : ∀ c ∈ text, c ∉ structural ∧ c ≠ '/') (rest : List Char) :
    unitsFrom .code pending line (text ++ rest) =
      unitsFrom .code (text.foldl push pending) line rest := by
  induction text generalizing pending with
  | nil => rfl
  | cons c text ih =>
    obtain ⟨hc, h⟩ := List.forall_mem_cons.1 h
    rw [List.cons_append, unitsFrom_cons hc.1 fun he => absurd he hc.2, ih h, List.foldl_cons]

theorem unitsFrom_keyword (h : word ∈ keywords) (rest : List Char) :
    unitsFrom .code pending line (word.toList ++ rest) =
      unitsFrom .code (word.toList.reverse ++ pending) line rest := by
  have hc := keyword_characters h
  rw [unitsFrom_append fun c hm => (hc c hm).1, foldl_push fun c hm => (hc c hm).2,
    squeeze_keyword word h]

theorem flush_keyword {blanks : List Char} (h : word ∈ keywords)
    (hb : ∀ c ∈ blanks, isBlank c) (line : Nat) :
    flush line (word.toList.reverse ++ blanks) = [⟨line, word.toList⟩] := by
  simp only [keywords, List.mem_cons, List.not_mem_nil, or_false] at h
  rcases h with rfl | rfl | rfl | rfl
  · exact flush_cons hb (by decide) line ['i']
  · exact flush_cons hb (by decide) line ['w', 'h', 'i', 'l']
  · exact flush_cons hb (by decide) line ['e', 'l', 's']
  · exact flush_cons hb (by decide) line ['e', 'l', 's', 'e', ' ', 'i']

theorem trimLeft_keyword (h : word ∈ keywords) (text : List Char) :
    trimLeft (word.toList ++ text) = word.toList ++ text := by
  simp only [keywords, List.mem_cons, List.not_mem_nil, or_false] at h
  rcases h with rfl | rfl | rfl | rfl
  all_goals exact trimLeft_cons (by decide) _

theorem unitsFrom_condition (h : Plain text) (rest : List Char) :
    unitsFrom .code pending line ('(' :: text ++ ')' :: rest) =
      unitsFrom .code (')' :: (squeeze false text).reverse ++ '(' :: pending) line rest := by
  rw [List.cons_append, unitsFrom_cons (by decide) (by simp), unitsFrom_run h.bare (by simp),
    push_char (by decide) (by decide), foldl_push h.blanks,
    unitsFrom_cons (by decide) (by simp), push_char (by decide) (by decide)]
  rfl

end FormulaScript.Script
