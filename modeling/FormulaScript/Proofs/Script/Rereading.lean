import FormulaScript.Proofs.Script.Listing

/-!
# Reading units again

The units of a script, written one on each line, are read as those units. What is put together where
a comment or a blank is left out is never a mark of a comment: a slash in front of a comment would
be part of its mark, and a run of blanks leaves one blank.
-/

namespace FormulaScript.Script

open Text

/-- Reading the text, in reverse here, from the start of a unit pends it as it is, in a mode that is
`code` or `string`. -/
inductive Legible : Mode → List Char → Prop
  | nil : Legible .code []
  | char (h : Legible .code text) (hc : c ∉ structural) (hp : push text c = c :: text)
    (hs : text.head? = some '/' → c ≠ '/' ∧ c ≠ '*') : Legible .code (c :: text)
  | opening (h : Legible .code text) : Legible .string ('"' :: text)
  | string (h : Legible .string text) (hq : c ≠ '"') (hn : c ≠ '\n') : Legible .string (c :: text)
  | closing (h : Legible .string text) : Legible .code ('"' :: text)

variable {mode : Mode} {text pending rest : List Char} {line : Nat}

/-! ## Legible texts -/

theorem Legible.unitsFrom (h : Legible mode text)
    (hs : mode = .code → text.head? = some '/' → ∀ c ∈ rest.head?, c ≠ '/' ∧ c ≠ '*') :
    unitsFrom .code [] line (text.reverse ++ rest) = Script.unitsFrom mode text line rest := by
  induction h generalizing rest with
  | nil => rfl
  | @char text c h hc hp hslash ih =>
    rw [List.reverse_cons, List.append_assoc, List.singleton_append,
      ih fun _ ht d hd => by cases hd; exact hslash ht,
      unitsFrom_cons hc fun he => hs rfl (congrArg some he), hp]
  | @opening text h ih =>
    rw [List.reverse_cons, List.append_assoc, List.singleton_append,
      ih fun _ _ d hd => by cases hd; decide]
    exact unitsFrom.eq_7 ..
  | @string text c h hq hn ih =>
    rw [List.reverse_cons, List.append_assoc, List.singleton_append,
      ih fun hm => absurd hm (by decide), unitsFrom.eq_6 _ _ _ _ hn, if_neg hq]
  | @closing text h ih =>
    rw [List.reverse_cons, List.append_assoc, List.singleton_append,
      ih fun hm => absurd hm (by decide), unitsFrom.eq_6 _ _ _ _ (by decide), if_pos rfl]

/-- What a legible text starts with is legible. -/
theorem Legible.of_append (h : Legible mode (rest ++ text)) : ∃ mode', Legible mode' text := by
  induction rest generalizing mode with
  | nil => exact ⟨mode, h⟩
  | cons c rest ih =>
    cases h with
    | char h => exact ih h
    | opening h => exact ih h
    | string h => exact ih h
    | closing h => exact ih h

theorem Legible.mode_of_blank (h : Legible mode text) (hb : ∀ c ∈ text, isBlank c) :
    mode = .code := by
  induction h with
  | nil => rfl
  | char => rfl
  | opening => exact absurd (hb '"' List.mem_cons_self) (by decide)
  | string h hq hn ih => exact ih (List.forall_mem_cons.1 hb).2
  | closing => rfl

theorem push_append (hp : pending ≠ []) (c : Char) (rest : List Char) :
    push (pending ++ rest) c = push pending c ++ rest := by
  cases pending with
  | nil => exact absurd rfl hp
  | cons d pending =>
    unfold push
    split
    · split
      · next hd => exact (if_pos hd).symm ▸ rfl
      · next hd => exact (if_neg hd).symm ▸ rfl
    · rfl

/-- Blanks in front of a legible text can be left out. -/
theorem Legible.of_append_blanks {blanks : List Char} (h : Legible mode (text ++ blanks))
    (hb : ∀ c ∈ blanks, isBlank c) (hl : ∀ c ∈ text.getLast?, isBlank c = false) :
    Legible mode text := by
  induction text generalizing mode with
  | nil =>
    cases h.mode_of_blank hb
    exact .nil
  | cons c text ih =>
    cases text with
    | nil =>
      have hc : isBlank c = false := hl c rfl
      cases h with
      | char h hn hp hs => exact .char .nil hn (push_of_not_blank hc []) nofun
      | opening h => exact .opening .nil
      | string h => cases h.mode_of_blank hb
      | closing h => cases h.mode_of_blank hb
    | cons d text =>
      have hl : ∀ c ∈ (d :: text).getLast?, isBlank c = false := hl
      cases h with
      | char h hn hp hs =>
        have hp : push (d :: text ++ blanks) c = c :: d :: text ++ blanks := hp
        rw [push_append (List.cons_ne_nil d text)] at hp
        exact .char (ih h hl) hn (List.append_cancel_right hp) hs
      | opening h => exact .opening (ih h hl)
      | string h hq hn => exact .string (ih h hl) hq hn
      | closing h => exact .closing (ih h hl)

/-! ## Units that are begun -/

/-- What holds of a unit that is begun, in reverse, when the reading of a text goes on in a mode: it
is legible, and the text makes no mark of a comment with it. -/
structure Pends (mode : Mode) (pending text : List Char) : Prop where
  legible : Legible (if mode = .string then .string else .code) pending
  code : mode = .code → pending.head? = some '/' → ∀ c ∈ text.head?, c ≠ '/' ∧ c ≠ '*'
  comment : mode = .blockComment → pending.head? ≠ some '/'

theorem pends_nil (h : mode ≠ .string) (text : List Char) : Pends mode [] text where
  legible := by
    rw [if_neg h]
    exact .nil
  code := nofun
  comment := nofun

theorem pends_code (h : Legible .code pending)
    (hs : pending.head? = some '/' → ∀ c ∈ text.head?, c ≠ '/' ∧ c ≠ '*') :
    Pends .code pending text := ⟨h, fun _ => hs, nofun⟩

theorem pends_string (h : Legible .string pending) (text : List Char) :
    Pends .string pending text := ⟨h, nofun, nofun⟩

theorem pends_lineComment (h : Legible .code pending) (text : List Char) :
    Pends .lineComment pending text := ⟨h, nofun, nofun⟩

theorem pends_blockComment (h : Legible .code pending) (hs : pending.head? ≠ some '/')
    (text : List Char) : Pends .blockComment pending text := ⟨h, nofun, fun _ => hs⟩

theorem Pends.char (h : Pends .string pending (c :: rest)) (hn : c ≠ '\n') :
    Pends (if c = '"' then .code else .string) (c :: pending) rest := by
  by_cases hc : c = '"'
  · rw [if_pos hc, hc]
    exact pends_code (.closing h.legible) fun hh => absurd hh (by simp)
  · rw [if_neg hc]
    exact pends_string (.string h.legible hc hn) rest

theorem push_cases (pending : List Char) (c : Char) :
    push pending c = pending ∧ atBlank pending ∨
      push pending c = ' ' :: pending ∧ atBlank pending = false ∨
        push pending c = c :: pending := by
  unfold push
  split
  · split
    · next hb => exact .inl ⟨rfl, hb⟩
    · next hb => exact .inr (.inl ⟨rfl, Bool.eq_false_iff.2 hb⟩)
  · exact .inr (.inr rfl)

theorem Pends.push (h : Pends .code pending (c :: rest)) (hc : c ∉ structural)
    (hs : c = '/' → ∀ d ∈ rest.head?, d ≠ '/' ∧ d ≠ '*') : Pends .code (push pending c) rest := by
  have hl : Legible .code pending := h.legible
  obtain ⟨hp, hb⟩ | ⟨hp, hb⟩ | hp := push_cases pending c
  · rw [hp]
    refine pends_code hl fun hh => ?_
    cases pending with
    | nil => cases hh
    | cons d pending =>
      cases hh
      cases hb
  · have hspace : Script.push pending ' ' = ' ' :: pending := by
      rw [push_space (.inl rfl), hb]
      rfl
    rw [hp]
    exact pends_code (.char hl (by decide) hspace fun _ => by decide) fun hh =>
      absurd hh (by simp)
  · rw [hp]
    exact pends_code (.char hl hc hp fun hh => h.code rfl hh c rfl) fun hh =>
      hs (Option.some.inj hh)

/-! ## Complete units -/

/-- The text is read as one unit where it stands on a line. -/
def Rereads (text : List Char) : Prop :=
  ∀ line rest, unitsFrom .code [] line (text ++ '\n' :: rest) =
    ⟨line, text⟩ :: unitsFrom .code [] (line + 1) rest

theorem flush_nil (line : Nat) : flush line [] = [] := rfl

theorem Legible.nextLine (h : Legible mode text) : mode.nextLine = .code := by
  cases h <;> rfl

theorem Legible.rereads (h : Legible mode text.reverse) (hn : text ≠ []) (ht : trim text = text) :
    Rereads text := by
  intro line rest
  have hu : Script.unitsFrom .code [] line (text.reverse.reverse ++ '\n' :: rest) =
      Script.unitsFrom mode text.reverse line ('\n' :: rest) := h.unitsFrom (by simp)
  have hf : flush line text.reverse = [⟨line, text⟩] := by
    rw [flush, List.reverse_reverse, ht]
    simp [hn]
  rw [List.reverse_reverse] at hu
  rw [hu, unitsFrom_newline, hf, h.nextLine]
  rfl

theorem Legible.rereads_semicolon (h : Legible .code text.reverse) (ht : trimLeft text = text) :
    Rereads (text ++ [';']) := by
  intro line rest
  have hu : Script.unitsFrom .code [] line (text.reverse.reverse ++ ';' :: '\n' :: rest) =
      Script.unitsFrom .code text.reverse line (';' :: '\n' :: rest) := h.unitsFrom (by simp)
  rw [List.reverse_reverse] at hu
  rw [List.append_assoc, List.singleton_append, hu, unitsFrom_semicolon, flush_semicolon,
    unitsFrom_newline, flush_nil, List.reverse_reverse, ht]
  rfl

/-- What is left of a legible text from another character on is legible. -/
theorem Legible.of_trimLeft (h : Legible mode pending) :
    Legible mode (trimLeft pending.reverse).reverse := by
  obtain ⟨blanks, hb, hp⟩ := exists_trimLeft pending.reverse
  have hr : pending = (trimLeft pending.reverse).reverse ++ blanks.reverse := by
    rw [← List.reverse_append, ← hp, List.reverse_reverse]
  rw [hr] at h
  refine h.of_append_blanks (by simpa using hb) fun c hc => ?_
  rw [List.getLast?_reverse] at hc
  exact isBlank_of_head? (trimLeft_trimLeft _) c hc

theorem Legible.flush_rereads (h : Legible mode pending) :
    ∀ unit ∈ flush line pending, Rereads unit.text := by
  intro unit hu
  obtain ⟨hn, ht⟩ := trim_of_mem_flush hu
  obtain ⟨left, right, hl, -, he⟩ := exists_of_mem_flush hu
  have hp : pending = right.reverse ++ (left ++ unit.text).reverse := by
    rw [← List.reverse_append, ← he, List.reverse_reverse]
  rw [hp] at h
  obtain ⟨mode', h⟩ := h.of_append
  have htext : trimLeft (left ++ unit.text) = unit.text := by
    rw [trimLeft_append_of_blank hl, ← ht, trimLeft_trim]
  have hlegible := h.of_trimLeft
  rw [List.reverse_reverse, htext] at hlegible
  exact hlegible.rereads hn ht

theorem Legible.flush_semicolon_rereads (h : Legible .code pending) :
    ∀ unit ∈ flush line (';' :: pending), Rereads unit.text := by
  intro unit hu
  rw [flush_semicolon, List.mem_singleton] at hu
  subst hu
  exact h.of_trimLeft.rereads_semicolon (trimLeft_trimLeft _)

theorem rereads_opening : Rereads openingBrace := by
  intro line rest
  rw [openingBrace, List.singleton_append, unitsFrom_opening, unitsFrom_newline, flush_nil]
  rfl

theorem rereads_closing : Rereads closingBrace := by
  intro line rest
  rw [closingBrace, List.singleton_append, unitsFrom_closing, unitsFrom_newline, flush_nil]
  rfl

/-- The induction is on the reading; what is kept is what holds of the unit that is begun. -/
theorem rereads_unitsFrom (mode : Mode) (pending : List Char) (line : Nat) (text : List Char)
    (h : Pends mode pending text) :
    ∀ unit ∈ unitsFrom mode pending line text, Rereads unit.text := by
  fun_induction unitsFrom mode pending line text with
  | case1 mode pending line => exact h.legible.flush_rereads
  | case2 mode pending line rest ih =>
    exact List.forall_mem_append.2
      ⟨h.legible.flush_rereads, ih (pends_nil (nextLine_ne_string mode) rest)⟩
  | case3 pending line rest ih =>
    exact ih (pends_code h.legible fun hs => absurd hs (h.comment rfl))
  | case4 pending line c rest hn hs ih =>
    exact ih (pends_blockComment h.legible (h.comment rfl) rest)
  | case5 pending line c rest hn ih => exact ih (pends_lineComment h.legible rest)
  | case6 pending line c rest hn ih => exact ih (h.char hn)
  | case7 pending line rest ih => exact ih (pends_string (.opening h.legible) rest)
  | case8 pending line rest ih =>
    -- a slash in front of the comment would be part of its mark
    exact ih (pends_blockComment h.legible (fun hs => (h.code rfl hs '/' rfl).1 rfl) rest)
  | case9 pending line rest ih | case10 pending line rest ih =>
    exact ih (pends_lineComment h.legible rest)
  | case11 pending line c rest hn hq hb hl hh hc ih =>
    refine List.forall_mem_append.2 ⟨h.legible.flush_rereads, List.forall_mem_cons.2 ⟨?_, ?_⟩⟩
    · have hc : c = '{' ∨ c = '}' := by simpa using hc
      rcases hc with rfl | rfl
      · exact rereads_opening
      · exact rereads_closing
    · exact ih (pends_nil (by simp) rest)
  | case12 pending line rest hn hq hb hl hh hc ih =>
    have hl : Legible .code pending := h.legible
    exact List.forall_mem_append.2 ⟨hl.flush_semicolon_rereads, ih (pends_nil (by simp) rest)⟩
  | case13 pending line c rest hn hq hb hl hh hc hs ih =>
    have hstructural : c ∉ structural := by simp_all [structural]
    refine ih (h.push hstructural fun he d hd => ?_)
    exact ⟨head?_ne (fun tail ht => hl tail he ht) d hd,
      head?_ne (fun tail ht => hb tail he ht) d hd⟩

/-! ## Scripts -/

/-- Texts that are read as one unit each, written one on each line. -/
theorem unitsFrom_rereads {us : List SourceUnit} (h : ∀ unit ∈ us, Rereads unit.text) (line : Nat) :
    unitsFrom .code [] line (us.flatMap fun unit => unit.text ++ ['\n']) =
      us.mapIdx fun i unit => ⟨line + i, unit.text⟩ := by
  induction us generalizing line with
  | nil => rw [List.flatMap_nil, unitsFrom, flush_nil, List.mapIdx_nil]
  | cons unit us ih =>
    obtain ⟨hu, h⟩ := List.forall_mem_cons.1 h
    rw [List.flatMap_cons, List.append_assoc, List.singleton_append, hu, ih h, List.mapIdx_cons]
    simp only [Nat.add_zero, Nat.add_assoc, Nat.add_comm 1]

theorem intercalate_newline (us : List SourceUnit) (h : us ≠ []) :
    ['\n'].intercalate (us.map SourceUnit.text) ++ ['\n'] =
      us.flatMap fun unit => unit.text ++ ['\n'] := by
  induction us with
  | nil => exact absurd rfl h
  | cons unit us ih =>
    cases us with
    | nil => simp
    | cons next us =>
      rw [List.flatMap_cons, ← ih (List.cons_ne_nil next us)]
      simp [List.intercalate]

/-- The units of a script, written one on each line, have the same texts as units, on the lines from
the first one on. -/
theorem units_reread (script : List Char) :
    units (['\n'].intercalate ((units script).map SourceUnit.text)) =
      (units script).mapIdx fun i unit => ⟨i + 1, unit.text⟩ := by
  by_cases hn : units script = []
  · rw [hn]
    rfl
  have hr : ∀ unit ∈ units script, Rereads unit.text :=
    rereads_unitsFrom .code [] 1 script (pends_nil (by simp) script)
  calc
    units (['\n'].intercalate ((units script).map SourceUnit.text))
    _ = units (['\n'].intercalate ((units script).map SourceUnit.text) ++ ['\n']) :=
      (units_newline _).symm
    _ = unitsFrom .code [] 1 ((units script).flatMap fun unit => unit.text ++ ['\n']) := by
      rw [intercalate_newline _ hn, units]
    _ = (units script).mapIdx fun i unit => ⟨i + 1, unit.text⟩ := by
      rw [unitsFrom_rereads hr 1]
      simp only [Nat.add_comm 1]

end FormulaScript.Script
