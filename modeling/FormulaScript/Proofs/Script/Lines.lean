import FormulaScript.Proofs.Script.Load
import FormulaScript.Proofs.Script.RoundTrip

/-!
# Statements over several lines

A statement that is broken at some of its blanks is joined again from the units of its lines, unless
one of these lines is taken for the start of an `if` or a `while`.
-/

namespace FormulaScript.Script

open Text Token

variable {text : List Char}

/-- The lines of a text when line feeds take the place of some of its blanks. -/
inductive Breaks : List Char → List (List Char) → Prop
  | last (line : List Char) : Breaks line [line]
  | cons (line : List Char) : isBlank c → Breaks rest lines →
      Breaks (line ++ c :: rest) (line :: lines)

/-- After its leading blanks the line starts with a keyword, which nothing but blanks follows on it
up to a parenthesis or the end. -/
def Leads (keyword : String) (line : List Char) : Prop :=
  ∃ before between rest, (∀ c ∈ before, isBlank c) ∧ (∀ c ∈ between, isBlank c) ∧
    line = before ++ keyword.toList ++ between ++ rest ∧ ∀ c ∈ rest.head?, c = '('

/-! ## Collapsed blanks -/

/-- The text without trailing blanks, and with one space for every other run of blanks. -/
def pack (skip : Bool) (text : List Char) : List Char := trimRight (squeeze skip text)

theorem blank_squeeze_iff (skip : Bool) (text : List Char) :
    (∀ c ∈ squeeze skip text, isBlank c) ↔ ∀ c ∈ text, isBlank c := by
  induction text generalizing skip with
  | nil => rfl
  | cons c text ih =>
    rw [squeeze]
    split
    · next hs =>
      have hc : isBlank c := isBlank_of_isSpace (isSpace_iff.2 hs)
      have hn : isBlank ' ' := by decide
      cases skip <;> simp [ih, hc, hn]
    · simp [ih]

theorem pack_eq_nil_iff {skip : Bool} : pack skip text = [] ↔ ∀ c ∈ text, isBlank c :=
  trimRight_eq_nil_iff.trans (blank_squeeze_iff skip text)

theorem pack_char (h : isBlank c = false) (skip : Bool) (text : List Char) :
    pack skip (c :: text) = c :: pack false text := by
  have hs : ¬ (c = ' ' ∨ c = '\t') := fun hs => by
    rw [isBlank_of_isSpace (isSpace_iff.2 hs)] at h
    cases h
  rw [pack, squeeze, if_neg hs, trimRight_cons h]
  rfl

theorem pack_space (h : isSpace c) (ht : ¬ ∀ c ∈ text, isBlank c) (skip : Bool) :
    pack skip (c :: text) = (if skip then [] else [' ']) ++ pack true text := by
  rw [pack, squeeze, if_pos (isSpace_iff.1 h), trimRight_append_of_ne]
  · rfl
  · exact fun hn => ht (pack_eq_nil_iff.1 hn)

/-- Two parts of a text at a space keep one space between them. -/
theorem pack_append_space {after : List Char} (hb : ∀ c ∈ text, isBlank c → isSpace c)
    (hs : isSpace c) (ha : ¬ ∀ c ∈ after, isBlank c) (skip : Bool) :
    pack skip (text ++ c :: after) =
      if (∀ c ∈ text, isBlank c) then (if skip then [] else [' ']) ++ pack true after
      else pack skip text ++ ' ' :: pack true after := by
  induction text generalizing skip with
  | nil => simpa using pack_space hs ha skip
  | cons d text ih =>
    obtain ⟨hd, hb⟩ := List.forall_mem_cons.1 hb
    have ih := ih hb
    have hafter : ¬ ∀ x ∈ text ++ c :: after, isBlank x := fun h =>
      ha fun x hx => h x (List.mem_append_right _ (List.mem_cons_of_mem _ hx))
    by_cases hblank : isBlank d
    · rw [List.cons_append, pack_space (hd hblank) hafter, ih true]
      by_cases hn : ∀ x ∈ text, isBlank x
      · have hall : ∀ x ∈ d :: text, isBlank x := List.forall_mem_cons.2 ⟨hblank, hn⟩
        rw [if_pos hn, if_pos hall]
        rfl
      · rw [if_neg hn, if_neg fun h => hn (List.forall_mem_cons.1 h).2,
          pack_space (hd hblank) hn, List.append_assoc]
    · have hneg : ¬ ∀ x ∈ d :: text, isBlank x := fun h => hblank (List.forall_mem_cons.1 h).1
      have hblank : isBlank d = false := by simpa using hblank
      rw [List.cons_append, pack_char hblank, pack_char hblank, ih false, if_neg hneg]
      by_cases hn : ∀ x ∈ text, isBlank x
      · rw [if_pos hn, pack_eq_nil_iff.2 hn]
        rfl
      · rw [if_neg hn]
        rfl

theorem pack_append_blank {after : List Char} (hb : ∀ c ∈ text, isBlank c → isSpace c)
    (ha : ∀ c ∈ after, isBlank c) (skip : Bool) : pack skip (text ++ after) = pack skip text := by
  induction text generalizing skip with
  | nil =>
    rw [List.nil_append, pack_eq_nil_iff.2 ha]
    rfl
  | cons d text ih =>
    obtain ⟨hd, hb⟩ := List.forall_mem_cons.1 hb
    by_cases hblank : isBlank d
    · by_cases hn : ∀ c ∈ text, isBlank c
      · have hall : ∀ c ∈ d :: text, isBlank c := List.forall_mem_cons.2 ⟨hblank, hn⟩
        rw [pack_eq_nil_iff.2 hall, pack_eq_nil_iff.2 (List.forall_mem_append.2 ⟨hall, ha⟩)]
      · have hn' : ¬ ∀ c ∈ text ++ after, isBlank c := fun h =>
          hn fun c hc => h c (List.mem_append_left _ hc)
        rw [List.cons_append, pack_space (hd hblank) hn, pack_space (hd hblank) hn', ih hb]
    · have hblank : isBlank d = false := by simpa using hblank
      rw [List.cons_append, pack_char hblank, pack_char hblank, ih hb]

theorem pack_true (hb : ∀ c ∈ text, isBlank c → isSpace c) : pack true text = tidy text := by
  have hd : text.dropWhile isSpace = trimLeft text := by
    induction text with
    | nil => rfl
    | cons c text ih =>
      obtain ⟨hc, hb⟩ := List.forall_mem_cons.1 hb
      by_cases hs : isSpace c
      · rw [List.dropWhile_cons_of_pos hs, ih hb]
        exact (List.dropWhile_cons_of_pos (isBlank_of_isSpace hs)).symm
      · rw [List.dropWhile_cons_of_neg hs]
        exact (List.dropWhile_cons_of_neg fun h => hs (hc h)).symm
  rw [pack, squeeze_skip, hd, ← trimLeft_squeeze (fun c hc h => isSpace_iff.1 (hb c hc h))]
  rfl

theorem tidy_eq_pack (hb : ∀ c ∈ text, isBlank c → isSpace c) :
    tidy text = pack false (trimLeft text) := by
  rw [tidy, trim, trimLeft_squeeze fun c hc h => isSpace_iff.1 (hb c hc h)]
  rfl

theorem tidy_eq_nil_iff (hb : ∀ c ∈ text, isBlank c → isSpace c) :
    tidy text = [] ↔ ∀ c ∈ text, isBlank c := by
  rw [← pack_true hb, pack_eq_nil_iff]

theorem squeeze_append_char (h : isBlank c = false) (skip : Bool) (text : List Char) :
    squeeze skip (text ++ [c]) = squeeze skip text ++ [c] := by
  have hs : ¬ (c = ' ' ∨ c = '\t') := fun hs => by
    rw [isBlank_of_isSpace (isSpace_iff.2 hs)] at h
    cases h
  induction text generalizing skip with
  | nil => simp [squeeze, hs]
  | cons d text ih =>
    rw [List.cons_append, squeeze, squeeze]
    split
    · rw [ih, List.append_assoc]
    · rw [ih, List.cons_append]

theorem tidy_statement (text : List Char) :
    tidy (text ++ [';']) = trimLeft (squeeze false text) ++ [';'] := by
  rw [tidy, squeeze_append_char (by decide), trim, trimLeft_append (by decide),
    trimRight_append (by decide)]

/-! ## Joined pieces -/

theorem trim_tidy (text : List Char) : trim (tidy text) = tidy text := trim_trim _

theorem intercalate_pair (pieces : List (List Char)) (a b : List Char) :
    [' '].intercalate (pieces ++ [a ++ ' ' :: b]) = [' '].intercalate (pieces ++ [a, b]) := by
  induction pieces with
  | nil => simp [List.intercalate]
  | cons piece pieces ih =>
    cases pieces with
    | nil => simp [List.intercalate]
    | cons next pieces => simpa [List.intercalate] using ih

/-- A text that is broken at a space is joined from its two parts. -/
theorem joinPieces_break {after : List Char} (hb : ∀ c ∈ text, isBlank c → isSpace c)
    (hs : isSpace c) (ha : ∀ c ∈ after, isBlank c → isSpace c) (pieces : List (List Char)) :
    joinPieces (pieces ++ [tidy (text ++ c :: after)]) =
      joinPieces (pieces ++ [tidy text, tidy after]) := by
  have hall : ∀ d ∈ text ++ c :: after, isBlank d → isSpace d :=
    List.forall_mem_append.2 ⟨hb, List.forall_mem_cons.2 ⟨fun _ => hs, ha⟩⟩
  have hblank : isBlank c := isBlank_of_isSpace hs
  unfold joinPieces
  simp only [List.map_append, List.map_cons, List.map_nil, trim_tidy, List.filter_append]
  by_cases hn : ∀ c ∈ after, isBlank c
  · have ht : tidy (text ++ c :: after) = tidy text := by
      rw [← pack_true hall, ← pack_true hb,
        pack_append_blank hb (List.forall_mem_cons.2 ⟨hblank, hn⟩)]
    simp [ht, (tidy_eq_nil_iff ha).2 hn, List.filter_cons]
  · have ht := pack_append_space hb hs hn true
    rw [pack_true hall, pack_true hb, pack_true ha] at ht
    by_cases hnt : ∀ c ∈ text, isBlank c
    · rw [ht, if_pos hnt]
      simp [(tidy_eq_nil_iff hb).2 hnt, List.filter_cons]
    · have hna : tidy after ≠ [] := fun h => hn ((tidy_eq_nil_iff ha).1 h)
      have hnt' : tidy text ≠ [] := fun h => hnt ((tidy_eq_nil_iff hb).1 h)
      rw [ht, if_neg hnt]
      simp [hna, hnt', intercalate_pair]

/-! ## Keywords -/

theorem isSome_afterKeyword_iff {keyword : String} :
    (afterKeyword keyword text).isSome ↔
      ∃ more, text = keyword.toList ++ more ∧ ∀ c ∈ (trim more).head?, c = '(' := by
  unfold afterKeyword
  constructor
  · intro h
    split at h
    · next hp =>
      obtain ⟨more, rfl⟩ := List.isPrefixOf_iff_prefix.1 hp
      rw [drop_word] at h
      refine ⟨more, rfl, ?_⟩
      cases ht : trim more with
      | nil => simp
      | cons c rest => simpa [ht] using h
    · cases h
  · rintro ⟨more, rfl, hm⟩
    rw [if_pos (List.isPrefixOf_iff_prefix.2 (List.prefix_append _ _)), drop_word]
    cases ht : trim more with
    | nil => rfl
    | cons c rest =>
      rw [ht] at hm
      cases hm c rfl
      rfl

theorem leads_iff (hk : keyword ∈ keywords) : Leads keyword text ↔
    ∃ more, trimLeft text = keyword.toList ++ more ∧ ∀ c ∈ (trimLeft more).head?, c = '(' := by
  constructor
  · rintro ⟨before, between, rest, hb, hbt, rfl, hr⟩
    refine ⟨between ++ rest, ?_, ?_⟩
    · simp only [List.append_assoc]
      rw [trimLeft_append_of_blank hb, trimLeft_keyword hk]
    · rw [trimLeft_append_of_blank hbt]
      intro c hc
      cases rest with
      | nil => cases hc
      | cons d rest =>
        cases hr d rfl
        cases hc
        rfl
  · rintro ⟨more, ht, hm⟩
    obtain ⟨before, hb, hbt⟩ := exists_trimLeft text
    obtain ⟨between, hbw, hbm⟩ := exists_trimLeft more
    refine ⟨before, between, trimLeft more, hb, hbw, ?_, hm⟩
    rw [List.append_assoc, ← hbm, List.append_assoc, ← ht, ← hbt]

theorem pack_append {word : List Char} (hw : ∀ c ∈ word, isBlank c = false)
    (text : List Char) : pack false (word ++ text) = word ++ pack false text := by
  induction word with
  | nil => rfl
  | cons c word ih =>
    obtain ⟨hc, hw⟩ := List.forall_mem_cons.1 hw
    rw [List.cons_append, pack_char hc, ih hw, List.cons_append]

theorem exists_of_pack {word more : List Char} (hb : ∀ c ∈ text, isBlank c → isSpace c)
    (hw : ∀ c ∈ word, isBlank c = false) (h : pack false text = word ++ more) :
    ∃ rest, text = word ++ rest ∧ more = pack false rest := by
  induction word generalizing text with
  | nil => exact ⟨text, rfl, h.symm⟩
  | cons c word ih =>
    obtain ⟨hc, hword⟩ := List.forall_mem_cons.1 hw
    cases text with
    | nil => cases h
    | cons d text =>
      obtain ⟨hd, hb⟩ := List.forall_mem_cons.1 hb
      by_cases hblank : isBlank d
      · -- a blank in front is a space in the packed text, with which no keyword starts
        by_cases hn : ∀ x ∈ text, isBlank x
        · have hall : ∀ x ∈ d :: text, isBlank x := List.forall_mem_cons.2 ⟨hblank, hn⟩
          rw [pack_eq_nil_iff.2 hall] at h
          cases h
        · rw [pack_space (hd hblank) hn] at h
          obtain ⟨rfl, -⟩ := List.cons.inj h
          cases hc
      · rw [pack_char (by simpa using hblank)] at h
        obtain ⟨rfl, h'⟩ := List.cons.inj h
        obtain ⟨rest, rfl, hr⟩ := ih hb hword h'
        exact ⟨rest, rfl, hr⟩

theorem head?_trim_pack (hb : ∀ c ∈ text, isBlank c → isSpace c) :
    (trim (pack false text)).head? = (trimLeft text).head? := by
  have ht : trim (pack false text) = tidy text := trim_trimRight _
  rw [ht, tidy_eq_pack hb]
  cases hl : trimLeft text with
  | nil => rfl
  | cons c rest =>
    rw [pack_char (isBlank_of_trimLeft hl)]
    rfl

/-- The unit of a line is taken for the start of a block if the line leads with the keyword. -/
theorem isSome_afterKeyword_tidy (hk : keyword ∈ keywords)
    (hw : ∀ c ∈ keyword.toList, isBlank c = false)
    (hb : ∀ c ∈ text, isBlank c → isSpace c) :
    (afterKeyword keyword (tidy text)).isSome ↔ Leads keyword text := by
  have hbl : ∀ c ∈ trimLeft text, isBlank c → isSpace c := fun c hc =>
    hb c ((List.dropWhile_suffix isBlank).subset hc)
  rw [isSome_afterKeyword_iff, leads_iff hk, tidy_eq_pack hb]
  constructor
  · rintro ⟨more, hp, hm⟩
    obtain ⟨rest, hr, rfl⟩ := exists_of_pack hbl hw hp
    have hbr : ∀ c ∈ rest, isBlank c → isSpace c := fun c hc =>
      hbl c (hr ▸ List.mem_append_right _ hc)
    exact ⟨rest, hr, head?_trim_pack hbr ▸ hm⟩
  · rintro ⟨rest, hr, hm⟩
    have hbr : ∀ c ∈ rest, isBlank c → isSpace c := fun c hc =>
      hbl c (hr ▸ List.mem_append_right _ hc)
    exact ⟨pack false rest, by rw [hr, pack_append hw], (head?_trim_pack hbr).symm ▸ hm⟩

/-! ## Units -/

theorem Breaks.ne_nil (h : Breaks text lines) : lines ≠ [] := by
  cases h <;> simp

theorem Breaks.exists_rest {line rest : List Char} (h : line ++ c :: rest = text ++ [';'])
    (hc : isBlank c) : ∃ after, rest = after ++ [';'] ∧ text = line ++ c :: after := by
  rcases List.eq_nil_or_concat rest with rfl | ⟨after, d, rfl⟩
  · obtain ⟨-, h⟩ := List.append_inj' h rfl
    cases h
    cases hc
  · rw [List.concat_eq_append, ← List.cons_append, ← List.append_assoc] at h
    obtain ⟨ht, hd⟩ := List.append_inj' h rfl
    obtain ⟨rfl, -⟩ := List.cons.inj hd
    exact ⟨after, List.concat_eq_append, ht.symm⟩

/-- The lines of a statement are one that ends with its semicolon, after some without one. -/
theorem Breaks.statement_induction {motive : List Char → List (List Char) → Prop}
    (last : ∀ text, motive text [text ++ [';']])
    (cons : ∀ line c rest lines, isBlank c → Breaks (rest ++ [';']) lines → motive rest lines →
      motive (line ++ c :: rest) (line :: lines))
    (h : Breaks (text ++ [';']) lines) : motive text lines := by
  generalize ht : text ++ [';'] = whole at h
  induction h generalizing text with
  | last line => exact ht ▸ last text
  | cons line hc h ih =>
    obtain ⟨after, rfl, rfl⟩ := Breaks.exists_rest ht.symm hc
    exact cons line _ after _ hc h (ih rfl)

/-- The units of lines that hold nothing but plain characters. -/
def lineUnits : Nat → List (List Char) → List SourceUnit
  | _, [] => []
  | n, line :: lines =>
    (if (tidy line).isEmpty then [] else [⟨n, tidy line⟩]) ++ lineUnits (n + 1) lines

theorem flush_line (hb : ∀ c ∈ text, isBlank c → isSpace c) (n : Nat) :
    flush n (text.foldl push []) = if (tidy text).isEmpty then [] else [⟨n, tidy text⟩] := by
  have hb : ∀ c ∈ text, isBlank c → c = ' ' ∨ c = '\t' := fun c hc h => isSpace_iff.1 (hb c hc h)
  have ht : trim (squeeze true text) = tidy text := by
    rw [tidy, trim, trim, trimLeft_squeeze hb, trimLeft_squeeze hb]
  rw [flush, foldl_push hb, List.append_nil, List.reverse_reverse]
  exact congrArg
    (fun text : List Char => if text.isEmpty then [] else [(⟨n, text⟩ : SourceUnit)]) ht

theorem Plain.left {a b : List Char} (h : Plain (a ++ b)) : Plain a where
  blanks c hc := h.blanks c (List.mem_append_left _ hc)
  symbols c hc := h.symbols c (List.mem_append_left _ hc)
  comments := ⟨fun hi => h.comments.1 (hi.trans (List.prefix_append _ _).isInfix),
    fun hi => h.comments.2 (hi.trans (List.prefix_append _ _).isInfix)⟩

theorem Plain.after {a b : List Char} (h : Plain (a ++ c :: b)) : Plain b :=
  h.suffix ((List.suffix_cons c b).trans (List.suffix_append _ _))

theorem Breaks.units (h : Breaks (text ++ [';']) lines) (hp : Plain text) (n : Nat) :
    unitsFrom .code [] n (['\n'].intercalate lines) = lineUnits n lines := by
  revert hp n
  refine Breaks.statement_induction (motive := fun text lines => Plain text → ∀ n,
    unitsFrom .code [] n (['\n'].intercalate lines) = lineUnits n lines) ?_ ?_ h
  · intro text hp n
    have hb : ∀ c ∈ text, isBlank c → c = ' ' ∨ c = '\t' := hp.blanks
    have hi : ['\n'].intercalate [text ++ [';']] = text ++ [';'] := by simp [List.intercalate]
    have hf : flush n (';' :: (squeeze true text).reverse ++ []) = [⟨n, tidy (text ++ [';'])⟩] := by
      rw [flush_cons (by simp) (by decide), tidy_statement, trimLeft_squeeze hb,
        trimLeft_squeeze hb]
    have hne : (tidy (text ++ [';'])).isEmpty = false := by simp [tidy_statement]
    have hnil : unitsFrom .code [] n [] = [] := by rw [unitsFrom]; rfl
    rw [hi, unitsFrom_run hp.bare (by simp), unitsFrom_semicolon, foldl_push hb, hnil,
      List.append_nil, ← List.cons_append]
    refine hf.trans ?_
    simp [lineUnits, hne]
  · intro line c rest lines hc h ih hp n
    have hl : Plain line := hp.left
    have hi : ['\n'].intercalate (line :: lines) = line ++ '\n' :: ['\n'].intercalate lines := by
      obtain ⟨next, others, rfl⟩ := List.exists_cons_of_ne_nil h.ne_nil
      simp [List.intercalate]
    rw [hi, unitsFrom_run hl.bare (by simp), unitsFrom_newline, flush_line hl.spaces]
    exact congrArg _ (ih hp.after (n + 1))

/-! ## Blocks -/

theorem readPieces_suffix {level line : Nat} {text after : List Char} {units : List SourceUnit}
    {pieces : List (List Char)} {cursor : UnitCursor}
    (h : readPieces level line text units = .ok (pieces, after, cursor)) :
    cursor.units <:+ units := by
  induction units generalizing level line text pieces with
  | nil =>
    unfold readPieces at h
    split at h
    · simp only [Except.ok.injEq, Prod.mk.injEq] at h
      obtain ⟨-, -, rfl⟩ := h
      exact List.suffix_rfl
    · cases h
  | cons unit rest ih =>
    unfold readPieces at h
    split at h
    · simp only [Except.ok.injEq, Prod.mk.injEq] at h
      obtain ⟨-, -, rfl⟩ := h
      exact List.suffix_rfl
    · next level _ =>
      cases hr : readPieces level unit.line unit.text rest with
      | error _ => simp [hr, Except.map] at h
      | ok result =>
        obtain ⟨inner, tail, left⟩ := result
        simp only [hr, Except.map, Except.ok.injEq, Prod.mk.injEq] at h
        obtain ⟨-, rfl, rfl⟩ := h
        exact (ih hr).trans (List.suffix_cons _ _)

theorem conditionStart_suffix (text : List Char) (cursor : UnitCursor) :
    (conditionStart text cursor).2.units <:+ cursor.units := by
  unfold conditionStart
  split
  · split
    · exact List.suffix_rfl
    · next heq => exact heq ▸ List.suffix_cons _ _
  · exact List.suffix_rfl

theorem exists_of_openBlock {cursor opened : UnitCursor}
    (h : openBlock problem cursor = .ok opened) :
    ∃ unit, unit.text = openingBrace ∧ cursor.units = unit :: opened.units := by
  unfold openBlock at h
  split at h
  · cases h
  · next unit rest heq =>
    split at h
    · next ht =>
      cases h
      exact ⟨unit, ht, heq⟩
    · cases h

theorem exists_opening_of_openBlock {cursor : UnitCursor}
    (h : openBlock problem cursor = .ok opened) :
    ∃ unit ∈ cursor.units, unit.text = openingBrace := by
  obtain ⟨unit, ht, hu⟩ := exists_of_openBlock h
  exact ⟨unit, hu ▸ List.mem_cons_self, ht⟩

theorem exists_opening_of_readCondition {cursor : UnitCursor}
    (h : readCondition keyword text cursor = .ok result) :
    ∃ unit ∈ cursor.units, unit.text = openingBrace := by
  unfold readCondition at h
  split at h
  · next start began heq =>
    have hs : began.units <:+ cursor.units := by
      have hs := conditionStart_suffix text cursor
      rwa [heq] at hs
    split at h
    · cases h
    · next pieces after left hp =>
      simp only at h
      split at h
      · cases h
      · split at h
        · cases h
        · cases ho : openBlock .missingBraceAfterCondition left with
          | error _ => simp [ho, Except.map] at h
          | ok opened =>
            obtain ⟨unit, hu, ht⟩ := exists_opening_of_openBlock ho
            exact ⟨unit, hs.subset ((readPieces_suffix hp).subset hu), ht⟩
  · cases h

/-- A branch needs a brace that opens its block. -/
theorem exists_opening_of_readBranch {cursor : UnitCursor}
    (h : readBranch keyword line text cursor = .ok result) :
    ∃ unit ∈ cursor.units, unit.text = openingBrace := by
  unfold readBranch at h
  split at h
  · cases h
  · next hc => exact exists_opening_of_readCondition hc

variable {unit : SourceUnit} {rest : List SourceUnit}

theorem draft_unfinished (hc : unit.text ≠ closingBrace)
    (hi : afterKeyword "if" unit.text = none) (hw : afterKeyword "while" unit.text = none)
    (hl : unit.text.getLast? ≠ some ';') (topLevel : Bool) (line : Nat)
    (pieces : List (List Char)) :
    draft topLevel line pieces (unit :: rest) =
      draft topLevel unit.line (pieces ++ [unit.text]) rest := by
  rw [draft, if_neg hc, hi, hw]
  dsimp only
  rw [if_neg hl]

theorem draft_keyword (hc : unit.text ≠ closingBrace)
    (hk : (afterKeyword "if" unit.text).isSome ∨ (afterKeyword "while" unit.text).isSome)
    (ho : ∀ unit ∈ rest, unit.text ≠ openingBrace) (topLevel : Bool) (line : Nat)
    (pieces : List (List Char)) :
    ∃ fault, draft topLevel line pieces (unit :: rest) = .broken fault := by
  have hb {keyword : String} {text : List Char} {result : Branch × UnitCursor} :
      readBranch keyword unit.line text ⟨rest, unit.line⟩ ≠ .ok result := fun h => by
    obtain ⟨unit, hu, ht⟩ := exists_opening_of_readBranch h
    exact ho unit hu ht
  rw [draft, if_neg hc]
  split
  · split
    · exact ⟨_, rfl⟩
    · split
      · exact ⟨_, rfl⟩
      · next h => exact absurd h hb
  · split
    · exact ⟨_, rfl⟩
    · split
      · exact ⟨_, rfl⟩
      · next h => exact absurd h hb
  · simp_all

/-! ## Statements -/

theorem mem_of_mem_tidy (h : c ∈ tidy text) (hc : c ≠ ' ') : c ∈ text :=
  mem_of_mem_squeeze (mem_of_mem_trim h) hc

theorem mem_lineUnits (h : unit ∈ lineUnits n lines) :
    ∃ line ∈ lines, unit.text = tidy line ∧ tidy line ≠ [] := by
  induction lines generalizing n with
  | nil => cases h
  | cons line lines ih =>
    rw [lineUnits] at h
    rcases List.mem_append.1 h with h | h
    · split at h
      · cases h
      · next hne =>
        cases List.mem_singleton.1 h
        exact ⟨line, List.mem_cons_self, rfl, by simpa using hne⟩
    · obtain ⟨line, hl, ht⟩ := ih h
      exact ⟨line, List.mem_cons_of_mem _ hl, ht⟩

/-- The characters of the lines are those of the text and the semicolon. -/
theorem Breaks.mem (h : Breaks text lines) (hl : line ∈ lines) (hc : c ∈ line) : c ∈ text := by
  induction h with
  | last => exact List.mem_singleton.1 hl ▸ hc
  | cons _ _ _ ih =>
    rcases List.mem_cons.1 hl with rfl | hl
    · exact List.mem_append_left _ hc
    · exact List.mem_append_right _ (List.mem_cons_of_mem _ (ih hl))

theorem Breaks.ne_brace (h : Breaks (text ++ [';']) lines) (hp : Plain text)
    (hu : unit ∈ lineUnits n lines) : unit.text ≠ openingBrace ∧ unit.text ≠ closingBrace := by
  obtain ⟨line, hl, ht, -⟩ := mem_lineUnits hu
  have hne (c : Char) (hc : c ∈ ['{', '}']) : unit.text ≠ [c] := fun he => by
    have hm : c ∈ tidy line := ht ▸ he ▸ List.mem_singleton_self c
    have hs : c ≠ ' ' ∧ c ≠ ';' ∧ c ∈ ['"', '{', '}', ';', '#', '\x00'] := by
      simp only [List.mem_cons, List.not_mem_nil, or_false] at hc
      rcases hc with rfl | rfl <;> decide
    rcases List.mem_append.1 (h.mem hl (mem_of_mem_tidy hm hs.1)) with hm | hm
    · exact hp.symbols c hm hs.2.2
    · exact hs.2.1 (List.mem_singleton.1 hm)
  exact ⟨hne '{' (by decide), hne '}' (by decide)⟩

/-- The line is taken for the start of an `if` or a `while`. -/
def IsHeader (line : List Char) : Prop :=
  (afterKeyword "if" (tidy line)).isSome ∨ (afterKeyword "while" (tidy line)).isSome

instance (line : List Char) : Decidable (IsHeader line) := inferInstanceAs (Decidable (_ ∨ _))

theorem not_isHeader_iff : ¬ IsHeader text ↔
    afterKeyword "if" (tidy text) = none ∧ afterKeyword "while" (tidy text) = none := by
  simp [IsHeader]

theorem Plain.not_mem_tidy {line : List Char} (h : Plain line)
    (hc : c ∈ ['"', '{', '}', ';', '#', '\x00']) : c ∉ tidy line := fun hm => by
  have hs : c ≠ ' ' := by
    rintro rfl
    exact absurd hc (by decide)
  exact h.symbols c (mem_of_mem_tidy hm hs) hc

theorem Plain.tidy_ne_closing {line : List Char} (h : Plain line) : tidy line ≠ closingBrace :=
  fun he => h.not_mem_tidy (by decide : '}' ∈ _) (by rw [he]; exact List.mem_singleton_self _)

theorem Plain.getLast?_tidy {line : List Char} (h : Plain line) :
    (tidy line).getLast? ≠ some ';' :=
  fun he => h.not_mem_tidy (by decide) (List.mem_of_getLast? he)

theorem lineUnits_last (text : List Char) (n : Nat) :
    lineUnits n [text ++ [';']] = [⟨n, tidy (text ++ [';'])⟩] := by
  simp [lineUnits, tidy_statement]

theorem lineUnits_cons_of_ne {line : List Char} (h : tidy line ≠ []) (n : Nat)
    (lines : List (List Char)) :
    lineUnits n (line :: lines) = ⟨n, tidy line⟩ :: lineUnits (n + 1) lines := by
  simp [lineUnits, h]

theorem lineUnits_cons_of_eq {line : List Char} (h : tidy line = []) (n : Nat)
    (lines : List (List Char)) : lineUnits n (line :: lines) = lineUnits (n + 1) lines := by
  simp [lineUnits, h]

theorem not_isHeader_of_eq {line : List Char} (h : tidy line = []) : ¬ IsHeader line := by
  rw [not_isHeader_iff, h]
  exact ⟨rfl, rfl⟩

/-- Lines of which none is a header are read as the statement that they are the lines of. -/
theorem draft_lines (h : Breaks (text ++ [';']) lines) (hp : Plain text)
    (hk : ∀ line ∈ lines, ¬ IsHeader line) (topLevel : Bool) (n start : Nat)
    (pieces : List (List Char)) (hn : joinPieces (pieces ++ [tidy text]) ≠ []) :
    ∃ last, draft topLevel start pieces (lineUnits n lines) =
      .equation (joinPieces (pieces ++ [tidy text])) last .done := by
  revert hp hk n start pieces
  refine Breaks.statement_induction (motive := fun text lines => Plain text →
    (∀ line ∈ lines, ¬ IsHeader line) → ∀ n start pieces, joinPieces (pieces ++ [tidy text]) ≠ [] →
    ∃ last, draft topLevel start pieces (lineUnits n lines) =
      .equation (joinPieces (pieces ++ [tidy text])) last .done) ?_ ?_ h
  · intro text hp hk n start pieces hn
    obtain ⟨hi, hw⟩ := not_isHeader_iff.1 (hk _ List.mem_cons_self)
    have hj : joinPieces (pieces ++ [trimLeft (squeeze false text)]) =
        joinPieces (pieces ++ [tidy text]) := by
      have ht : trim (trimLeft (squeeze false text)) = trim (tidy text) := by
        rw [trim_tidy, trim, trimLeft_trimLeft]
        rfl
      simp [joinPieces, ht]
    refine ⟨n, ?_⟩
    rw [lineUnits_last, draft_statement (tidy_statement text) hi hw (hj ▸ hn), hj, draft_nil]
  · intro line c rest lines hc _ ih hp hk n start pieces hn
    obtain ⟨hhead, hk⟩ := List.forall_mem_cons.1 hk
    obtain ⟨hi, hw⟩ := not_isHeader_iff.1 hhead
    have hs : isSpace c := hp.spaces c (by simp) hc
    rw [joinPieces_break hp.left.spaces hs hp.after.spaces] at hn ⊢
    by_cases ht : tidy line = []
    · have hj : joinPieces (pieces ++ [tidy line, tidy rest]) =
          joinPieces (pieces ++ [tidy rest]) := by
        have hnil : trim [] = [] := rfl
        simp [joinPieces, ht, hnil]
      rw [hj] at hn ⊢
      rw [lineUnits_cons_of_eq ht]
      exact ih hp.after hk (n + 1) start pieces hn
    · have hj : pieces ++ [tidy line, tidy rest] = pieces ++ [tidy line] ++ [tidy rest] := by simp
      rw [hj] at hn ⊢
      rw [lineUnits_cons_of_ne ht, draft_unfinished hp.left.tidy_ne_closing hi hw
        hp.left.getLast?_tidy]
      exact ih hp.after hk (n + 1) n (pieces ++ [tidy line]) hn

/-- At the first header among the lines the reading stops, since it opens no block. -/
theorem draft_lines_broken (h : Breaks (text ++ [';']) lines) (hp : Plain text)
    (hk : ∃ line ∈ lines, IsHeader line) (topLevel : Bool) (n start : Nat)
    (pieces : List (List Char)) :
    ∃ fault, draft topLevel start pieces (lineUnits n lines) = .broken fault := by
  revert hp hk n start pieces
  refine Breaks.statement_induction (motive := fun text lines => Plain text →
    (∃ line ∈ lines, IsHeader line) → ∀ n start pieces,
    ∃ fault, draft topLevel start pieces (lineUnits n lines) = .broken fault) ?_ ?_ h
  · intro text hp hk n start pieces
    obtain ⟨line, hl, hk⟩ := hk
    cases List.mem_singleton.1 hl
    rw [lineUnits_last]
    have hc : tidy (text ++ [';']) ≠ closingBrace :=
      tidy_statement text ▸ append_semicolon_ne (by decide)
    refine draft_keyword ?_ ?_ (by simp) topLevel start pieces
    · exact hc
    · exact hk
  · intro line c rest lines hc h ih hp hk n start pieces
    by_cases ht : tidy line = []
    · rw [lineUnits_cons_of_eq ht]
      obtain ⟨header, hl, hh⟩ := hk
      rcases List.mem_cons.1 hl with rfl | hl
      · exact absurd hh (not_isHeader_of_eq ht)
      · exact ih hp.after ⟨header, hl, hh⟩ (n + 1) start pieces
    · rw [lineUnits_cons_of_ne ht]
      by_cases hh : IsHeader line
      · refine draft_keyword ?_ ?_ (fun unit hu => (h.ne_brace hp.after hu).1) topLevel start
          pieces
        · exact hp.left.tidy_ne_closing
        · exact hh
      · obtain ⟨hi, hw⟩ := not_isHeader_iff.1 hh
        obtain ⟨header, hl, hh'⟩ := hk
        rcases List.mem_cons.1 hl with rfl | hl
        · exact absurd hh' hh
        · rw [draft_unfinished hp.left.tidy_ne_closing hi hw hp.left.getLast?_tidy]
          exact ih hp.after ⟨header, hl, hh'⟩ (n + 1) n (pieces ++ [tidy line])

/-- The line of a statement is a header if it leads with a keyword. -/
theorem isHeader_iff (hb : ∀ c ∈ text, isBlank c → isSpace c) :
    IsHeader text ↔ Leads "if" text ∨ Leads "while" text := by
  have hw (keyword : String) (hk : keyword ∈ ["if", "while"]) :
      ∀ c ∈ keyword.toList, isBlank c = false := by
    have hall : ∀ keyword ∈ ["if", "while"], keyword.toList.all fun c => isBlank c = false := by
      decide
    exact fun c hc => of_decide_eq_true (List.all_eq_true.1 (hall keyword hk) c hc)
  rw [IsHeader, isSome_afterKeyword_tidy (by decide) (hw "if" (by decide)) hb,
    isSome_afterKeyword_tidy (by decide) (hw "while" (by decide)) hb]

section

variable {names : List String} {lines : List (List Char)}

theorem Breaks.spaces (h : Breaks (text ++ [';']) lines) (hp : Plain text) :
    ∀ line ∈ lines, ∀ c ∈ line, isBlank c → isSpace c := by
  intro line hl c hc hb
  rcases List.mem_append.1 (h.mem hl hc) with hc | hc
  · exact hp.spaces c hc hb
  · cases List.mem_singleton.1 hc
    cases hb

theorem ofScript_lines (h : Breaks (text ++ [';']) lines) (hp : Plain text) :
    Draft.ofScript (['\n'].intercalate lines) = draft true 1 [] (lineUnits 1 lines) := by
  rw [Draft.ofScript, Script.units, h.units hp]

theorem Suits.forms_lines {vars : Variables} (hs : Suits vars text)
    (h : Breaks (text ++ [';']) lines) (hk : ∀ line ∈ lines, ¬ IsHeader line) :
    ∃ e e' line, (Expr.parse text vars false).expr = some e ∧ e'.same e ∧
      (Draft.ofScript (['\n'].intercalate lines)).Forms vars.names (.equation e' line .nil) := by
  obtain ⟨e, hp, he⟩ := hs.exists_forms
  have hnul : '\x00' ∉ text := hs.plain.not_mem_nul
  have hn : tidy text ≠ [] := ne_nil_of_lexemes hnul he hs.plain.lexemes_tidy
  have hj : joinPieces ([] ++ [tidy text]) = tidy text := by
    rw [List.nil_append, joinPieces_singleton, trim_tidy]
    rwa [trim_tidy]
  obtain ⟨last, hd⟩ := draft_lines h hs.plain hk true 1 1 [] (by rwa [hj])
  obtain ⟨e', he', hes⟩ := he.of_lexemes hnul (Script.not_mem_tidy hnul (by decide))
    hs.plain.lexemes_tidy
  refine ⟨e, e', last, hp, hes, ?_⟩
  rw [ofScript_lines h hs.plain, hd, hj]
  exact .equation he' .done

end

/-- A suitable expression with a semicolon after it, and line feeds in the place of some of its
blanks, is parsed to the statement that it is, if none of the lines leads with `if` or `while`. If
one of them does, the script is faulty. -/
theorem parse_broken (names : List String) (text : List Char) (lines : List (List Char))
    (hs : Suits (.ofNames names (some names.length)) text) (hl : Breaks (text ++ [';']) lines) :
    let script := parse (String.ofList (['\n'].intercalate lines)) names
    ((∀ line ∈ lines, ¬ Leads "if" line ∧ ¬ Leads "while" line) →
      script.isClean ∧ ∃ e e' line,
        (Expr.parse text (.ofNames names (some names.length)) false).expr = some e ∧
        script.program = .equation e' line .nil ∧ e'.same e) ∧
    ((∃ line ∈ lines, Leads "if" line ∨ Leads "while" line) →
      ¬ script.isClean ∧ script.program = .nil) := by
  intro script
  have hb := hl.spaces hs.plain
  constructor
  · intro hk
    have hheader : ∀ line ∈ lines, ¬ IsHeader line := fun line hline h => by
      rcases (isHeader_iff (hb line hline)).1 h with h | h
      · exact (hk line hline).1 h
      · exact (hk line hline).2 h
    obtain ⟨e, e', last, hp, hes, hf⟩ := hs.forms_lines hl hheader
    have hscript : script = ⟨.equation e' last .nil, .ofNames names (some names.length), []⟩ :=
      parse_eq_of_forms (by rwa [String.toList_ofList])
    rw [hscript]
    exact ⟨rfl, e, e', last, hp, rfl, hes⟩
  · rintro ⟨line, hline, hk⟩
    obtain ⟨problem, hd⟩ := draft_lines_broken hl hs.plain
      ⟨line, hline, (isHeader_iff (hb line hline)).2 hk⟩ true 1 1 []
    have hscript : script = ⟨.nil, .ofNames names (some names.length), [problem]⟩ := by
      simp [script, parse, assemble, ofScript_lines hl hs.plain, hd, Draft.assemble]
    rw [hscript]
    exact ⟨Bool.false_ne_true, rfl⟩

theorem parse_broken_call :
    let text := "x + if(x,1, 2)".toList
    let lines := ["x + if(x,1,".toList, "2);".toList]
    let script := parse (String.ofList (['\n'].intercalate lines)) ["x"]
    Suits (.ofNames ["x"] (some 1)) text ∧ Breaks (text ++ [';']) lines ∧
      (∀ line ∈ lines, ¬ Leads "if" line ∧ ¬ Leads "while" line) ∧ script.isClean ∧
      ∃ e e' line, (Expr.parse text (.ofNames ["x"] (some 1)) false).expr = some e ∧
        script.program = .equation e' line .nil ∧ e'.same e := by
  intro text lines script
  have hs : Suits (.ofNames ["x"] (some 1)) text := by decide +kernel
  have hl : Breaks (text ++ [';']) lines := .cons "x + if(x,1,".toList (by decide) (.last _)
  have hk : ∀ line ∈ lines, ¬ Leads "if" line ∧ ¬ Leads "while" line := by
    have hall : ∀ line ∈ lines, ¬ IsHeader line := by decide +kernel
    intro line hline
    rw [← not_or, ← isHeader_iff (hl.spaces hs.plain line hline)]
    exact hall line hline
  exact ⟨hs, hl, hk, (parse_broken ["x"] text lines hs hl).1 hk⟩

/-- A line feed in front of a call of `if` makes it the start of a block. -/
theorem parse_broken_before_if :
    let text := "x + if(x,1,2)".toList
    let lines := ["x +".toList, "if(x,1,2);".toList]
    Suits (.ofNames ["x"] (some 1)) text ∧ Breaks (text ++ [';']) lines ∧
      ¬ (parse (String.ofList (['\n'].intercalate lines)) ["x"]).isClean := by
  intro text lines
  exact ⟨by decide +kernel, .cons "x +".toList (by decide) (.last _), by decide +kernel⟩

end FormulaScript.Script
