import FormulaScript.Proofs.Script.Units

/-!
# The units of a written script

Reading a text in which the pieces of a block are laid, the units come out that `Block.Cut` lists:
one for each piece, but for a keyword and its condition, which may share one. Reading starts and
ends at blanks, so the units of a block follow from those of its parts.
-/

namespace FormulaScript.Script

open Text

/-! ## Readings -/

section

variable {text middle rest : List Char} {kind kind' : List SourceUnit → Prop}

/-- From a text after blanks the reading comes to the rest after blanks, with units of some kind. -/
def Cuts (text : List Char) (kind : List SourceUnit → Prop) (rest : List Char) : Prop :=
  ∀ pending line, (∀ c ∈ pending, isBlank c) →
    ∃ units pending' line', kind units ∧ (∀ c ∈ pending', isBlank c) ∧
      unitsFrom .code pending line text = units ++ unitsFrom .code pending' line' rest

theorem Cuts.trans (h : Cuts text kind middle) (h' : Cuts middle kind' rest) :
    Cuts text (fun units => ∃ us vs, units = us ++ vs ∧ kind us ∧ kind' vs) rest := by
  intro pending line hp
  obtain ⟨us, pending', line', hk, hp', he⟩ := h pending line hp
  obtain ⟨vs, pending'', line'', hk', hp'', he'⟩ := h' pending' line' hp'
  refine ⟨us ++ vs, pending'', line'', ⟨us, vs, rfl, hk, hk'⟩, hp'', ?_⟩
  rw [he, he', List.append_assoc]

theorem Cuts.imp (h : Cuts text kind rest) (hk : ∀ units, kind units → kind' units) :
    Cuts text kind' rest := by
  intro pending line hp
  obtain ⟨us, pending', line', hu, hp', he⟩ := h pending line hp
  exact ⟨us, pending', line', hk us hu, hp', he⟩

/-- A gap in front of a text gives no units. -/
theorem Cuts.gap {gap : List Char} (hg : Gap gap) (h : Cuts text kind rest) :
    Cuts (gap ++ text) kind rest := by
  intro pending line hp
  rcases hg.skips text pending line with ⟨blanks, hb, he⟩ | ⟨blanks, line', hb, he⟩
  · obtain ⟨us, pending', line', hu, hp', he'⟩ :=
      h (blanks ++ pending) line (List.forall_mem_append.2 ⟨hb, hp⟩)
    exact ⟨us, pending', line', hu, hp', he.trans he'⟩
  · obtain ⟨us, pending', line', hu, hp', he'⟩ := h blanks line' hb
    refine ⟨us, pending', line', hu, hp', ?_⟩
    rw [he, flush_of_blank hp, he', List.nil_append]

end

/-! ## Pieces -/

/-- The brace after a gap ends the unit in front of it. -/
theorem unitsFrom_gap_opening (hg : Gap gap) (pending : List Char) (line : Nat)
    (rest : List Char) : ∃ line', unitsFrom .code pending line (gap ++ '{' :: rest) =
      flush line pending ++ ⟨line', openingBrace⟩ :: unitsFrom .code [] line' rest := by
  rcases hg.skips ('{' :: rest) pending line with ⟨blanks, hb, he⟩ | ⟨blanks, line', hb, he⟩
  · refine ⟨line, ?_⟩
    rw [he, unitsFrom_opening, flush_append_of_blank hb]
  · refine ⟨line', ?_⟩
    rw [he, unitsFrom_opening, flush_of_blank hb, List.nil_append]

/-- The units of a keyword and a condition: one, or two if the line ends between them. -/
inductive Headed (word : String) (condition : List Char) : List SourceUnit → Prop
  | joined (line : Nat) : (∀ c ∈ blanks, isBlank c) →
      Headed word condition [⟨line, word.toList ++ (blanks ++ '(' :: condition) ++ [')']⟩]
  | split (line line' : Nat) :
      Headed word condition [⟨line, word.toList⟩, ⟨line', '(' :: condition ++ [')']⟩]

theorem cuts_statement {text : List Char} (h : Plain text) (rest : List Char) :
    Cuts (text ++ ';' :: rest)
      (fun units => ∃ line, units = [⟨line, squeeze false (trimLeft text) ++ [';']⟩]) rest := by
  intro pending line hp
  refine ⟨_, [], line, ⟨line, rfl⟩, by simp, ?_⟩
  have hf := flush_cons hp (by decide : isBlank ';' = false) line (squeeze (atBlank pending) text)
  rw [unitsFrom_run h.bare (by simp), unitsFrom_semicolon, foldl_push h.blanks,
    ← List.cons_append, hf, trimLeft_squeeze h.blanks]

theorem cuts_closing (rest : List Char) :
    Cuts ('}' :: rest) (fun units => ∃ line, units = [⟨line, closingBrace⟩]) rest := by
  intro pending line hp
  refine ⟨_, [], line, ⟨line, rfl⟩, by simp, ?_⟩
  rw [unitsFrom_closing, flush_of_blank hp]
  rfl

theorem cuts_else (hg : Gap gap) (rest : List Char) :
    Cuts ("else".toList ++ (gap ++ '{' :: rest)) (fun units => ∃ line line',
      units = [⟨line, "else".toList⟩, ⟨line', openingBrace⟩]) rest := by
  intro pending line hp
  have hk : "else" ∈ keywords := by decide
  obtain ⟨line', he⟩ := unitsFrom_gap_opening hg ("else".toList.reverse ++ pending) line rest
  refine ⟨_, [], line', ⟨line, line', rfl⟩, by simp, ?_⟩
  rw [unitsFrom_keyword hk, he, flush_keyword hk hp]
  rfl

theorem cuts_header (hk : word ∈ keywords) (hc : Plain condition) (hg : Gap gap) (hg' : Gap gap')
    (rest : List Char) :
    Cuts (word.toList ++ (gap ++ ('(' :: condition ++ ')' :: (gap' ++ '{' :: rest))))
      (fun units => ∃ head line, units = head ++ [⟨line, openingBrace⟩] ∧
        Headed word (squeeze false condition) head) rest := by
  intro pending line hp
  rw [unitsFrom_keyword hk]
  rcases hg.skips ('(' :: condition ++ ')' :: (gap' ++ '{' :: rest))
    (word.toList.reverse ++ pending) line with ⟨blanks, hb, he⟩ | ⟨blanks, line', hb, he⟩
  · have hf := flush_cons hp (by decide : isBlank ')' = false) line
      (word.toList ++ (blanks.reverse ++ '(' :: squeeze false condition))
    rw [trimLeft_keyword hk] at hf
    obtain ⟨line', ho⟩ := unitsFrom_gap_opening hg' (')' :: (squeeze false condition).reverse ++
      '(' :: (blanks ++ (word.toList.reverse ++ pending))) line rest
    have hb : ∀ c ∈ blanks.reverse, isBlank c := by simpa using hb
    refine ⟨_, [], line', ⟨_, line', rfl, .joined line hb⟩, by simp, ?_⟩
    rw [he, unitsFrom_condition hc, ho, ← hf]
    simp
  · have hf := flush_cons hb (by decide : isBlank ')' = false) line'
      ('(' :: squeeze false condition)
    rw [trimLeft_cons (by decide)] at hf
    obtain ⟨line'', ho⟩ := unitsFrom_gap_opening hg' (')' :: (squeeze false condition).reverse ++
      '(' :: blanks) line' rest
    refine ⟨_, [], line'', ⟨_, line'', rfl, .split line line'⟩, by simp, ?_⟩
    rw [he, flush_keyword hk hp, unitsFrom_condition hc, ho, ← hf]
    simp

/-! ## Pieces of a text -/

theorem Laid.exists_cons (hl : Laid (piece :: pieces) text) :
    ∃ gap rest, Gap gap ∧ Laid pieces rest ∧ text = gap ++ (piece.text ++ rest) := by
  cases hl with
  | cons hg h => exact ⟨_, _, hg, h, List.append_assoc ..⟩

theorem Laid.statement (hl : Laid (.statement equation :: pieces) text) (hp : Plain equation) :
    ∃ rest, Laid pieces rest ∧ Cuts text (fun units => ∃ line,
      units = [⟨line, squeeze false (trimLeft equation) ++ [';']⟩]) rest := by
  obtain ⟨gap, rest, hg, h, rfl⟩ := hl.exists_cons
  have ht : (Piece.statement equation).text ++ rest = equation ++ ';' :: rest := by
    simp [Piece.text]
  exact ⟨rest, h, ht ▸ (cuts_statement hp rest).gap hg⟩

theorem Laid.closing (hl : Laid (.closing :: pieces) text) :
    ∃ rest, Laid pieces rest ∧
      Cuts text (fun units => ∃ line, units = [⟨line, closingBrace⟩]) rest := by
  obtain ⟨gap, rest, hg, h, rfl⟩ := hl.exists_cons
  exact ⟨rest, h, (cuts_closing rest).gap hg⟩

theorem Laid.otherwise (hl : Laid (.keyword "else" :: .opening :: pieces) text) :
    ∃ rest, Laid pieces rest ∧ Cuts text (fun units => ∃ line line',
      units = [⟨line, "else".toList⟩, ⟨line', openingBrace⟩]) rest := by
  obtain ⟨gap, rest, hg, h, rfl⟩ := hl.exists_cons
  obtain ⟨gap', rest, hg', h', rfl⟩ := h.exists_cons
  exact ⟨rest, h', (cuts_else hg' rest).gap hg⟩

theorem Laid.header (hl : Laid (.keyword word :: .condition condition :: .opening :: pieces) text)
    (hk : word ∈ keywords) (hp : Plain condition) :
    ∃ rest, Laid pieces rest ∧ Cuts text (fun units => ∃ head line,
      units = head ++ [⟨line, openingBrace⟩] ∧
        Headed word (squeeze false condition) head) rest := by
  obtain ⟨gap, rest, hg, h, rfl⟩ := hl.exists_cons
  obtain ⟨gap', rest, hg', h', rfl⟩ := h.exists_cons
  obtain ⟨gap'', rest, hg'', h'', rfl⟩ := h'.exists_cons
  have ht : (Piece.condition condition).text ++ (gap'' ++ (Piece.opening.text ++ rest)) =
      '(' :: condition ++ ')' :: (gap'' ++ '{' :: rest) := by
    simp [Piece.text, openingBrace]
  exact ⟨rest, h'', ht ▸ (cuts_header hk hp hg' hg'' rest).gap hg⟩

/-! ## Blocks -/

mutual

/-- The units of a block. -/
inductive Block.Cut : Block → List SourceUnit → Prop
  | done : Block.Cut .done []
  | equation (line : Nat) : Block.Cut rest us →
      Block.Cut (.equation text rest) (⟨line, squeeze false (trimLeft text) ++ [';']⟩ :: us)
  | branch (line line' : Nat) : Headed "if" (squeeze false condition) head →
      Block.Cut yes body → Tail.Cut tail others → Block.Cut rest us →
      Block.Cut (.branch condition yes tail rest)
        (head ++ ⟨line, openingBrace⟩ :: body ++ ⟨line', closingBrace⟩ :: (others ++ us))
  | loop (line line' : Nat) : Headed "while" (squeeze false condition) head →
      Block.Cut body vs → Block.Cut rest us →
      Block.Cut (.loop condition body rest)
        (head ++ ⟨line, openingBrace⟩ :: vs ++ ⟨line', closingBrace⟩ :: us)

inductive Tail.Cut : Tail → List SourceUnit → Prop
  | nothing : Tail.Cut .nothing []
  | otherwise (line line' line'' : Nat) : Block.Cut block body →
      Tail.Cut (.otherwise block)
        (⟨line, "else".toList⟩ :: ⟨line', openingBrace⟩ :: body ++ [⟨line'', closingBrace⟩])
  | elseIf (line line' : Nat) : Headed "else if" (squeeze false condition) head →
      Block.Cut yes body → Tail.Cut tail others →
      Tail.Cut (.elseIf condition yes tail)
        (head ++ ⟨line, openingBrace⟩ :: body ++ ⟨line', closingBrace⟩ :: others)

end

theorem Cuts.nil {kind : List SourceUnit → Prop} (h : kind []) (text : List Char) :
    Cuts text kind text :=
  fun pending line hp => ⟨[], pending, line, h, hp, rfl⟩

mutual

theorem Block.cuts {vars : Variables} (block : Block) (hs : block.Suits vars)
    (h : Laid (block.pieces ++ pieces) text) :
    ∃ rest, Laid pieces rest ∧ Cuts text block.Cut rest := by
  cases block with
  | done => exact ⟨text, h, .nil .done text⟩
  | equation equation after =>
    obtain ⟨hs, -, -, hs'⟩ := hs
    obtain ⟨rest, h, he⟩ := Laid.statement h hs.plain
    obtain ⟨rest, h, hr⟩ := after.cuts hs' h
    refine ⟨rest, h, (he.trans hr).imp ?_⟩
    rintro _ ⟨_, us, rfl, ⟨line, rfl⟩, hus⟩
    exact .equation line hus
  | branch condition yes tail after =>
    obtain ⟨hs, hsy, hst, hs'⟩ := hs
    simp only [Block.pieces, List.cons_append, List.append_assoc] at h
    obtain ⟨rest, h, hh⟩ := h.header (by decide) hs.plain
    obtain ⟨rest, h, hy⟩ := yes.cuts hsy h
    obtain ⟨rest, h, hc⟩ := h.closing
    obtain ⟨rest, h, ht⟩ := tail.cuts hst h
    obtain ⟨rest, h, hr⟩ := after.cuts hs' h
    refine ⟨rest, h, (hh.trans (hy.trans (hc.trans (ht.trans hr)))).imp ?_⟩
    rintro _ ⟨_, _, rfl, ⟨head, line, rfl, hhead⟩, body, _, rfl, hbody, _, _, rfl, ⟨line', rfl⟩,
      others, us, rfl, hothers, hus⟩
    simpa using Block.Cut.branch line line' hhead hbody hothers hus
  | loop condition body after =>
    obtain ⟨hs, hsb, hs'⟩ := hs
    simp only [Block.pieces, List.cons_append, List.append_assoc] at h
    obtain ⟨rest, h, hh⟩ := h.header (by decide) hs.plain
    obtain ⟨rest, h, hb⟩ := body.cuts hsb h
    obtain ⟨rest, h, hc⟩ := h.closing
    obtain ⟨rest, h, hr⟩ := after.cuts hs' h
    refine ⟨rest, h, (hh.trans (hb.trans (hc.trans hr))).imp ?_⟩
    rintro _ ⟨_, _, rfl, ⟨head, line, rfl, hhead⟩, inner, _, rfl, hinner, _, us, rfl, ⟨line', rfl⟩,
      hus⟩
    simpa using Block.Cut.loop line line' hhead hinner hus

theorem Tail.cuts {vars : Variables} (tail : Tail) (hs : tail.Suits vars)
    (h : Laid (tail.pieces ++ pieces) text) :
    ∃ rest, Laid pieces rest ∧ Cuts text tail.Cut rest := by
  cases tail with
  | nothing => exact ⟨text, h, .nil .nothing text⟩
  | otherwise block =>
    simp only [Tail.pieces, List.cons_append, List.append_assoc] at h
    obtain ⟨rest, h, hh⟩ := h.otherwise
    obtain ⟨rest, h, hb⟩ := block.cuts hs h
    obtain ⟨rest, h, hc⟩ := Laid.closing h
    refine ⟨rest, h, (hh.trans (hb.trans hc)).imp ?_⟩
    rintro _ ⟨_, _, rfl, ⟨line, line', rfl⟩, body, _, rfl, hbody, line'', rfl⟩
    exact .otherwise line line' line'' hbody
  | elseIf condition yes tail =>
    obtain ⟨hs, hsy, hst⟩ := hs
    simp only [Tail.pieces, List.cons_append, List.append_assoc] at h
    obtain ⟨rest, h, hh⟩ := h.header (by decide) hs.plain
    obtain ⟨rest, h, hy⟩ := yes.cuts hsy h
    obtain ⟨rest, h, hc⟩ := h.closing
    obtain ⟨rest, h, ht⟩ := tail.cuts hst h
    refine ⟨rest, h, (hh.trans (hy.trans (hc.trans ht))).imp ?_⟩
    rintro _ ⟨_, _, rfl, ⟨head, line, rfl, hhead⟩, body, _, rfl, hbody, _, others, rfl,
      ⟨line', rfl⟩, hothers⟩
    simpa using Tail.Cut.elseIf line line' hhead hbody hothers

end

/-- The units of a text in which a block is laid. -/
theorem Block.cut_units {vars : Variables} {block : Block} (hs : block.Suits vars)
    (h : Laid block.pieces text) : block.Cut (units text) := by
  rw [← List.append_nil block.pieces] at h
  obtain ⟨gap, h, hc⟩ := block.cuts hs h
  cases h with
  | nil hg =>
    have hn : Cuts [] (fun units => units = []) [] := .nil (by rfl) []
    obtain ⟨us, pending, line, ⟨us, _, rfl, hus, rfl⟩, hp, he⟩ :=
      hc.trans (List.append_nil gap ▸ hn.gap hg) [] 1 (by simp)
    have hu : unitsFrom .code pending line [] = [] := by
      rw [unitsFrom, flush_of_blank hp]
    rw [List.append_nil, hu, List.append_nil] at he
    rw [units, he]
    exact hus

end FormulaScript.Script
