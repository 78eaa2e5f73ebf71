import FormulaScript.Proofs.Script.Joining
import FormulaScript.Proofs.Script.Names
import FormulaScript.Proofs.Token.Words

/-!
# Braces among units

The end of a block is found by counting the braces among the units, whatever else they hold. Where a
block is read to its end, its braces are nested, but for one that a text has taken in.
-/

namespace FormulaScript.Script

open Text Token

/-! ## Counting -/

/-- The number of blocks that are open after the units, if `depth` are open before them; none if a
brace closes a block that is not open. -/
def blocksAfter : Nat → List SourceUnit → Option Nat
  | depth, [] => some depth
  | depth, unit :: rest =>
    if unit.text = openingBrace then blocksAfter (depth + 1) rest
    else if unit.text = closingBrace then
      match depth with
      | 0 => none
      | depth + 1 => blocksAfter depth rest
    else blocksAfter depth rest

/-- Every block that the units open or close is opened and closed by them. -/
def Nested (us : List SourceUnit) : Prop := blocksAfter 0 us = some 0

instance (us : List SourceUnit) : Decidable (Nested us) := inferInstanceAs (Decidable (_ = _))

variable {us vs body : List SourceUnit} {unit : SourceUnit} {depth depth' line : Nat}

section

variable (depth line : Nat) (rest : List SourceUnit)

theorem readBlock_opening (h : unit.text = openingBrace) :
    readBlock depth line (unit :: rest) = (readBlock (depth + 1) unit.line rest).map
      fun (body, cursor) => (unit :: body, cursor) := by
  have hc : unit.text ≠ closingBrace := h ▸ (by decide)
  simp only [readBlock, if_neg hc, if_pos h]

theorem readBlock_closing (h : unit.text = closingBrace) :
    readBlock (depth + 1) line (unit :: rest) = (readBlock depth unit.line rest).map
      fun (body, cursor) => (unit :: body, cursor) := by
  simp only [readBlock, if_pos h]

theorem readBlock_other (ho : unit.text ≠ openingBrace) (hc : unit.text ≠ closingBrace) :
    readBlock depth line (unit :: rest) = (readBlock depth unit.line rest).map
      fun (body, cursor) => (unit :: body, cursor) := by
  simp only [readBlock, if_neg hc, if_neg ho]

end

/-- A block that is read to its end opens and closes its own blocks. -/
theorem blocksAfter_of_readBlock {cursor : UnitCursor}
    (h : readBlock depth line us = .ok (body, cursor)) : blocksAfter depth body = some 0 := by
  induction us generalizing depth line body with
  | nil => cases h
  | cons unit rest ih =>
    by_cases ho : unit.text = openingBrace
    · rw [readBlock_opening depth line rest ho] at h
      obtain ⟨⟨inner, left⟩, hb, h⟩ := map_eq_ok.1 h
      cases h
      unfold blocksAfter
      rw [if_pos ho]
      exact ih hb
    by_cases hc : unit.text = closingBrace
    · cases depth with
      | zero =>
        rw [readBlock, if_pos hc] at h
        cases h
        rfl
      | succ depth =>
        rw [readBlock_closing depth line rest hc] at h
        obtain ⟨⟨inner, left⟩, hb, h⟩ := map_eq_ok.1 h
        cases h
        unfold blocksAfter
        rw [if_neg ho, if_pos hc]
        exact ih hb
    · rw [readBlock_other depth line rest ho hc] at h
      obtain ⟨⟨inner, left⟩, hb, h⟩ := map_eq_ok.1 h
      cases h
      unfold blocksAfter
      rw [if_neg ho, if_neg hc]
      exact ih hb

/-- The reading of a block goes on after units with the blocks that they leave open. -/
theorem exists_readBlock_append (h : blocksAfter depth us = some depth') (k line : Nat)
    (rest : List SourceUnit) : ∃ line', readBlock (depth + k) line (us ++ rest) =
      (readBlock (depth' + k) line' rest).map fun (body, cursor) => (us ++ body, cursor) := by
  induction us generalizing depth line with
  | nil =>
    cases h
    refine ⟨line, ?_⟩
    cases hr : readBlock (depth' + k) line rest <;> simp [hr, Except.map]
  | cons unit us ih =>
    have hmap (line' : Nat) : ((readBlock (depth' + k) line' rest).map
        fun (body, cursor) => (us ++ body, cursor)).map
          (fun (body, cursor) => (unit :: body, cursor)) =
        (readBlock (depth' + k) line' rest).map
          fun (body, cursor) => (unit :: us ++ body, cursor) := by
      cases readBlock (depth' + k) line' rest <;> rfl
    unfold blocksAfter at h
    rw [List.cons_append]
    split at h
    · next ho =>
      obtain ⟨line', h⟩ := ih h unit.line
      refine ⟨line', ?_⟩
      rw [readBlock_opening _ _ _ ho, Nat.add_right_comm, h, hmap]
    · next ho =>
      split at h
      · next hc =>
        cases depth with
        | zero => cases h
        | succ depth =>
          obtain ⟨line', h⟩ := ih h unit.line
          refine ⟨line', ?_⟩
          rw [Nat.add_right_comm, readBlock_closing _ _ _ hc, h, hmap]
      · next hc =>
        obtain ⟨line', h⟩ := ih h unit.line
        refine ⟨line', ?_⟩
        rw [readBlock_other _ _ _ ho hc, h, hmap]

/-- Units are read to their end as a part of a block exactly if their braces are nested. -/
theorem enclosed_iff : Enclosed us ↔ Nested us := by
  refine ⟨fun h => blocksAfter_of_readBlock (h.readBlock_eq 1 1 []), fun h depth line rest => ?_⟩
  have hread := exists_readBlock_append h depth line rest
  rwa [Nat.zero_add] at hread

/-! ## Braces in texts -/

/-- The texts of the units that are braces. -/
def braces : List (List Char) := [openingBrace, closingBrace]

/-- A brace starts a word of the text, and is in no string. -/
def BareBrace (text : List Char) : Prop :=
  ∃ front c back, text = front ++ c :: back ∧ [c] ∈ braces ∧ (∀ d ∈ front.getLast?, d = ' ') ∧
    ¬ EndsInString front

variable {c : Char} {text source : List Char} {pieces ps qs : List (List Char)}

theorem eq_brace_iff : [c] ∈ braces ↔ c = '{' ∨ c = '}' := by
  simp [braces, openingBrace, closingBrace]

theorem exists_brace (h : text ∈ braces) : ∃ c, text = [c] ∧ [c] ∈ braces := by
  have ht : text = ['{'] ∨ text = ['}'] := by simpa [braces, openingBrace, closingBrace] using h
  rcases ht with rfl | rfl
  · exact ⟨'{', rfl, h⟩
  · exact ⟨'}', rfl, h⟩

/-- A brace is no token of an expression. -/
theorem kind_read_brace (h : [c] ∈ braces) (rest : List Char) :
    (Lexeme.read c rest).kind = .unknown := by
  have hc : c ≠ '"' ∧ isDelimiterChar c = false ∧ startsNumber c rest = false ∧ c ∈ marks := by
    rcases eq_brace_iff.1 h with rfl | rfl
    · exact ⟨by decide, by decide, by simp [startsNumber]; decide, by decide⟩
    · exact ⟨by decide, by decide, by simp [startsNumber]; decide, by decide⟩
  obtain ⟨hquote, hdelimiter, hnumber, hmark⟩ := hc
  have hletter : isLetter c = false := isLetter_eq_false c (List.mem_append_left _ hmark)
  refine Lexeme.read_cases c rest ?_ ?_ ?_ ?_ ?_ ?_ ?_ ?_
  · exact fun hq => absurd hq hquote
  · exact fun hq => absurd hq hquote
  · exact fun _ hd => by simp [hdelimiter] at hd
  · exact fun _ hd => by simp [hdelimiter] at hd
  · exact fun _ _ hs => by simp [hnumber] at hs
  · exact fun _ _ _ hl => by simp [hletter] at hl
  · exact fun _ _ _ hl => by simp [hletter] at hl
  · exact fun _ _ _ _ => rfl

/-- A text that forms an expression has no brace of its own, and no part that the tokens are read
from has. -/
theorem not_bareBrace {e : Expr} (h : Expr.Forms names text e) (hn : '\x00' ∉ text)
    (ho : OnlyStringsQuote text) (hl : lexemes text = ls ++ lexemes source) :
    ¬ BareBrace source := by
  rintro ⟨front, c, back, hs, hc, hfront, hstring⟩
  have htoken (lexeme : Lexeme) (hm : lexeme ∈ lexemes source) :
      ∃ t ∈ beforeFinish (scan text).1, t.shape = lexeme.shape := by
    refine List.mem_map.1 ?_
    rw [shapes_scan hn, hl]
    exact List.mem_map_of_mem (List.mem_append_right ls hm)
  have hfaultless (lexeme : Lexeme) (hm : lexeme ∈ lexemes source) : lexeme.problem = none :=
    (scan_faultless_iff hn).1 h.faultless lexeme (hl ▸ List.mem_append_right ls hm)
  have hquote (lexeme : Lexeme) (hm : lexeme ∈ lexemes source) (hk : lexeme.kind ≠ .string) :
      '"' ∉ lexeme.text := by
    obtain ⟨t, ht, he⟩ := htoken lexeme hm
    have hkind : t.kind = lexeme.kind := congrArg Prod.fst he
    rw [text_eq_of_lexeme he.symm]
    exact ho t ((List.takeWhile_sublist _).subset ht) (hkind ▸ hk)
  have hne : isBlank c = false ∧ c ≠ '"' := by
    rcases eq_brace_iff.1 hc with rfl | rfl <;> decide
  obtain ⟨rest, hr⟩ := exists_read_of_space hfaultless hquote hs hne.1 hne.2 hfront
    (Nat.not_odd_iff_even.1 hstring)
  obtain ⟨t, ht, he⟩ := htoken _ hr
  exact (h.derives.known t ht).1 ((congrArg Prod.fst he).trans (kind_read_brace hc rest))

theorem BareBrace.append (h : BareBrace text) (more : List Char) : BareBrace (text ++ more) := by
  obtain ⟨front, c, back, rfl, hc, hfront, hstring⟩ := h
  exact ⟨front, c, back ++ more, by simp, hc, hfront, hstring⟩

theorem not_bareBrace_test {e : Expr} {condition : List Char}
    (h : Expr.Forms names (wrapped condition) e) (hn : '\x00' ∉ wrapped condition)
    (ho : OnlyStringsQuote (wrapped condition)) : ¬ BareBrace condition := by
  have hl : lexemes (wrapped condition) =
      [.ifName, .symbol '('] ++ lexemes (condition ++ testEnd) := by
    rw [wrapped_eq, lexemes_if]
    rfl
  exact fun hb => not_bareBrace h hn ho hl (hb.append testEnd)

/-! ## Braces in pieces -/

theorem not_endsInString_trimmed (h : ¬ EndsInString text) : ¬ EndsInString (trim text) := by
  have ht : [] ++ text ++ [] = text := by simp
  exact not_endsInString_trim (ht.symm ▸ h) List.not_mem_nil List.not_mem_nil

/-- A piece that is a brace stands on its own in the joined text, after pieces that close their
strings. -/
theorem bareBrace_joinPieces (hc : [c] ∈ braces) (hps : ∀ piece ∈ ps, ¬ EndsInString piece) :
    BareBrace (joinPieces (ps ++ [c] :: qs)) := by
  induction ps with
  | nil =>
    have ht : trim [c] = [c] := by rcases eq_brace_iff.1 hc with rfl | rfl <;> rfl
    have hb (back : List Char) : BareBrace (c :: back) :=
      ⟨[], c, back, rfl, hc, nofun, by decide⟩
    rw [List.nil_append]
    rcases joinPieces_cons [c] qs with ⟨hn, -⟩ | ⟨-, h⟩ | h
    · rw [ht] at hn
      cases hn
    · rw [h, ht]
      exact hb []
    · rw [h, ht]
      exact hb (' ' :: joinPieces qs)
  | cons piece ps ih =>
    obtain ⟨hpiece, hps⟩ := List.forall_mem_cons.1 hps
    obtain ⟨front, d, back, hj, hd, hfront, hstring⟩ := ih hps
    rw [List.cons_append]
    rcases joinPieces_cons piece (ps ++ [c] :: qs) with ⟨-, h⟩ | ⟨hn, -⟩ | h
    · rw [h]
      exact ⟨front, d, back, hj, hd, hfront, hstring⟩
    · rw [hn] at hj
      exact absurd hj (by simp)
    · refine ⟨trim piece ++ ' ' :: front, d, back, by rw [h, hj]; simp, hd, fun e he => ?_, ?_⟩
      · cases front with
        | nil =>
          rw [List.getLast?_concat] at he
          exact (Option.some.inj he).symm
        | cons f front =>
          rw [List.getLast?_append_cons, List.getLast?_cons_cons] at he
          exact hfront e he
      · rw [endsInString_append (not_endsInString_trimmed hpiece)]
        have hspace : ¬ EndsInString [' '] := by decide
        exact fun hs => hstring ((endsInString_append hspace front).1 hs)

/-- Where the joined text has no brace of its own, no piece is a brace. -/
theorem not_mem_braces (hps : ∀ piece ∈ ps, ¬ EndsInString piece)
    (hb : ¬ BareBrace (joinPieces (ps ++ qs))) : ∀ piece ∈ ps, piece ∉ braces := by
  intro piece hp hm
  obtain ⟨c, rfl, hc⟩ := exists_brace hm
  obtain ⟨before, after, rfl⟩ := List.append_of_mem hp
  refine hb ?_
  rw [List.append_assoc, List.cons_append]
  exact bareBrace_joinPieces hc fun piece hm => hps piece (List.mem_append_left _ hm)

/-! ## Conditions -/

theorem Within.not_endsInString (h : Within us text) (hc : Closing us) : ¬ EndsInString text := by
  obtain ⟨unit, hu, before, after, ht, hb, ha⟩ := h
  have hunit := hc unit hu
  unfold EndsInString at hunit ⊢
  rwa [ht, List.count_append, List.count_append, List.count_eq_zero.2 hb,
    List.count_eq_zero.2 ha, Nat.zero_add, Nat.add_zero] at hunit

theorem not_mem_braces_of_closed {level : Nat} {before after : List Char}
    (h : scanParentheses level text = .closed before after) : text ∉ braces := by
  intro hm
  obtain ⟨c, rfl, hc⟩ := exists_brace hm
  have hp : ')' ∈ [c] := eq_of_closed h ▸ List.mem_append_right _ List.mem_cons_self
  rw [← List.mem_singleton.1 hp] at hc
  exact absurd hc (by decide)

/-- The units that a condition takes in are no braces. The last one has its parenthesis, and the
others are pieces of it. -/
theorem exists_taken_of_readPieces {level line : Nat} {after : List Char} {cursor : UnitCursor}
    (h : readPieces level line text us = .ok (pieces, after, cursor)) (hclosing : Closing us)
    (ht : ¬ EndsInString text) (hps : ∀ piece ∈ ps, ¬ EndsInString piece)
    (hb : ¬ BareBrace (joinPieces (ps ++ pieces))) :
    text ∉ braces ∧ ∃ taken, us = taken ++ cursor.units ∧ ∀ unit ∈ taken, unit.text ∉ braces := by
  induction us generalizing level line text pieces ps with
  | nil =>
    unfold readPieces at h
    split at h
    · next hc =>
      cases h
      exact ⟨not_mem_braces_of_closed hc, [], rfl, List.forall_mem_nil _⟩
    · cases h
  | cons unit rest ih =>
    obtain ⟨hunit, hclosing⟩ := List.forall_mem_cons.1 hclosing
    unfold readPieces at h
    split at h
    · next hc =>
      cases h
      exact ⟨not_mem_braces_of_closed hc, [], rfl, List.forall_mem_nil _⟩
    · obtain ⟨⟨inner, tail, cursor'⟩, hr, h⟩ := map_eq_ok.1 h
      cases h
      have hps : ∀ piece ∈ ps ++ [text], ¬ EndsInString piece :=
        List.forall_mem_append.2 ⟨hps, List.forall_mem_singleton.2 ht⟩
      have hb : ¬ BareBrace (joinPieces (ps ++ [text] ++ inner)) := by
        rwa [List.append_assoc, List.singleton_append]
      obtain ⟨hu, taken, rfl, htaken⟩ := ih hr hclosing hunit hps hb
      refine ⟨not_mem_braces hps hb text (List.mem_append_right _ List.mem_cons_self),
        unit :: taken, rfl, List.forall_mem_cons.2 ⟨hu, htaken⟩⟩

theorem exists_taken_of_conditionStart {rest : List Char} {cursor start : UnitCursor}
    (h : conditionStart text cursor = ('(' :: rest, start)) :
    ∃ taken, cursor.units = taken ++ start.units ∧ ∀ unit ∈ taken, unit.text ∉ braces := by
  unfold conditionStart at h
  split at h
  · split at h
    · cases h
    · next unit others heq =>
      have ht : unit.text = '(' :: rest := congrArg Prod.fst h
      have hs : ⟨others, unit.line⟩ = start := congrArg Prod.snd h
      refine ⟨[unit], by rw [heq, ← hs]; rfl, List.forall_mem_singleton.2 ?_⟩
      rw [ht]
      simp [braces, openingBrace, closingBrace]
  · cases h
    exact ⟨[], rfl, List.forall_mem_nil _⟩

/-! ## Blocks -/

theorem enclosed_of_forall (h : ∀ unit ∈ us, unit.text ∉ braces) : Enclosed us := by
  induction us with
  | nil => exact enclosed_nil
  | cons unit us ih =>
    obtain ⟨hu, h⟩ := List.forall_mem_cons.1 h
    have hne : unit.text ≠ openingBrace ∧ unit.text ≠ closingBrace := by
      simpa [braces] using hu
    exact (enclosed_singleton hne.1 hne.2 unit.line).append (ih h)

/-- A block in its braces. -/
theorem enclosed_block {cursor opened left : UnitCursor}
    (ho : openBlock problem cursor = .ok opened)
    (hb : readBlock 0 opened.line opened.units = .ok (body, left)) :
    ∃ taken, cursor.units = taken ++ left.units ∧ Enclosed taken := by
  obtain ⟨⟨line, _⟩, rfl, hu⟩ := exists_of_openBlock ho
  obtain ⟨⟨line', _⟩, rfl, hu'⟩ := readBlock_eq_append hb
  have hbody : Enclosed body := enclosed_iff.2 (blocksAfter_of_readBlock hb)
  refine ⟨⟨line, openingBrace⟩ :: body ++ [⟨line', closingBrace⟩], ?_, hbody.braces line line'⟩
  rw [hu, hu']
  simp

theorem enclosed_readBranch {keyword : String} {line : Nat} {cursor left : UnitCursor}
    {branch : Branch} (h : readBranch keyword line text cursor = .ok (branch, left))
    (hclosing : Closing us) (ht : Within us text) (hs : cursor.units ⊆ us)
    (hb : ¬ BareBrace branch.condition) :
    ∃ taken, cursor.units = taken ++ left.units ∧ Enclosed taken := by
  obtain ⟨opened, hc, hblock, -⟩ := exists_of_readBranch h
  obtain ⟨rest, start, pieces, after, found, hstart, hp, -, hj, -, ho⟩ := readCondition_eq_ok.1 hc
  obtain ⟨hrest, hstarts⟩ := within_conditionStart ht hs hstart
  obtain ⟨taken, hu, htaken⟩ := exists_taken_of_conditionStart hstart
  obtain ⟨-, taken', hu', htaken'⟩ := exists_taken_of_readPieces hp
    (fun unit hm => hclosing unit (hstarts hm)) (hrest.not_endsInString hclosing)
    (List.forall_mem_nil _) (by rwa [List.nil_append, hj])
  obtain ⟨block, hu'', hblock⟩ := enclosed_block ho hblock
  refine ⟨taken ++ taken' ++ block, by rw [hu, hu', hu'']; simp, ?_⟩
  exact (enclosed_of_forall (List.forall_mem_append.2 ⟨htaken, htaken'⟩)).append hblock

theorem enclosed_readChain {cursor : UnitCursor} {chain : Chain}
    (h : readChain cursor = .ok chain) (hclosing : Closing us) (hs : cursor.units ⊆ us)
    (hb : ∀ branch ∈ chain.branches, ¬ BareBrace branch.condition) :
    ∃ taken, cursor.units = taken ++ chain.cursor.units ∧ Enclosed taken := by
  fun_induction readChain cursor generalizing chain with
  | case1 | case4 =>
    cases h
    exact ⟨[], rfl, enclosed_nil⟩
  | case2 | case5 => cases h
  | case3 unit rest line hc he =>
    obtain ⟨opened, body, left, ho, hblock, -, rfl⟩ := exists_of_else h
    obtain ⟨block, hu, hblock⟩ := enclosed_block ho hblock
    have hunit : Enclosed [unit] := enclosed_singleton (he ▸ by decide) hc unit.line
    exact ⟨[unit] ++ block, congrArg (unit :: ·) hu, hunit.append hblock⟩
  | case6 unit rest line hc _ text ht branch left hbr ih =>
    obtain ⟨hunit, hs⟩ := List.cons_subset.1 hs
    have hwithin := (within_of_mem hunit).afterElseIf ht
    obtain ⟨-, hleft⟩ := from_readBranch hwithin hs hbr
    obtain ⟨inner, hch, rfl⟩ := map_eq_ok.1 h
    obtain ⟨hbranch, hbranches⟩ := List.forall_mem_cons.1 hb
    obtain ⟨taken, hu, htaken⟩ := enclosed_readBranch hbr hclosing hwithin hs hbranch
    obtain ⟨others, hu', hothers⟩ := ih hch hleft hbranches
    have ho : unit.text ≠ openingBrace := by
      intro ho
      rw [ho] at ht
      cases ht
    refine ⟨[unit] ++ (taken ++ others), ?_, ?_⟩
    · change unit :: rest = _
      rw [show rest = taken ++ left.units from hu, hu']
      simp
    · exact (enclosed_singleton ho hc unit.line).append (htaken.append hothers)

/-- The braces of a block that is read to its end are nested, if its units close their strings and
its texts have no brace of their own. -/
theorem Drafted.enclosed {d : Draft} (h : Drafted pieces us d) (hclosing : Closing us)
    (hp : ∀ piece ∈ pieces, ¬ EndsInString piece) (hw : d.Whole (¬ BareBrace ·))
    (hs : ∀ text ∈ d.statements, ¬ BareBrace text) :
    Enclosed us ∧ ∀ piece ∈ pieces, piece ∉ braces := by
  have hnil : ∀ piece ∈ ([] : List (List Char)), piece ∉ braces := List.forall_mem_nil _
  have header {keyword : String} {unit : SourceUnit} {text : List Char}
      (hn : ∀ brace ∈ braces, afterKeyword keyword brace = none)
      (hk : afterKeyword keyword unit.text = some text) : Enclosed [unit] := by
    refine enclosed_of_forall (List.forall_mem_singleton.2 fun hm => ?_)
    rw [hn _ hm] at hk
    cases hk
  have ended {unit : SourceUnit} (hl : unit.text.getLast? = some ';') : Enclosed [unit] := by
    refine enclosed_of_forall (List.forall_mem_singleton.2 fun hm => ?_)
    obtain ⟨c, hc, hb⟩ := exists_brace hm
    rw [hc] at hl
    cases hl
    exact absurd hb (by decide)
  induction h with
  | done => exact ⟨enclosed_nil, hnil⟩
  | @branch text first left later unit rest chain hi hb hch h ih =>
    obtain ⟨hfirst, -, hno, hlater⟩ := hw
    have hwithin : Within (unit :: rest) text :=
      (within_of_mem List.mem_cons_self).afterKeyword (by decide) hi
    have hrest := List.subset_cons_self unit rest
    obtain ⟨-, hleft⟩ := from_readBranch hwithin hrest hb
    obtain ⟨taken, hu, htaken⟩ := enclosed_readBranch hb hclosing hwithin hrest hfirst
    obtain ⟨others, hu', hothers⟩ :=
      enclosed_readChain hch hclosing hleft (Chain.forall_of_whole hno)
    have hcursor : chain.cursor.units ⊆ unit :: rest := (from_readChain hleft hch).cursor
    obtain ⟨hmore, -⟩ := ih (fun u hm => hclosing u (hcursor hm)) (List.forall_mem_nil _) hlater
      (List.forall_mem_append.1 hs).2
    refine ⟨?_, hnil⟩
    have hsplit : unit :: rest = [unit] ++ (taken ++ (others ++ chain.cursor.units)) := by
      rw [← hu', ← show rest = taken ++ left.units from hu]
      rfl
    rw [hsplit]
    exact (header (by decide) hi).append (htaken.append (hothers.append hmore))
  | @loop text body left later unit rest hi hw' hb h ih =>
    obtain ⟨hcondition, -, hlater⟩ := hw
    have hwithin : Within (unit :: rest) text :=
      (within_of_mem List.mem_cons_self).afterKeyword (by decide) hw'
    have hrest := List.subset_cons_self unit rest
    obtain ⟨-, hleft⟩ := from_readBranch hwithin hrest hb
    obtain ⟨taken, hu, htaken⟩ := enclosed_readBranch hb hclosing hwithin hrest hcondition
    obtain ⟨hmore, -⟩ := ih (fun u hm => hclosing u (hleft hm)) (List.forall_mem_nil _) hlater
      (List.forall_mem_append.1 hs).2
    refine ⟨?_, hnil⟩
    have hsplit : unit :: rest = [unit] ++ (taken ++ left.units) := congrArg (unit :: ·) hu
    rw [hsplit]
    exact (header (by decide) hw').append (htaken.append hmore)
  | @empty pieces later unit rest hi hw' hl hj h ih =>
    obtain ⟨-, hclosing⟩ := List.forall_mem_cons.1 hclosing
    obtain ⟨hmore, -⟩ := ih hclosing (List.forall_mem_nil _) hw hs
    have hbare : ¬ BareBrace (joinPieces (pieces ++ [unit.text.dropLast])) := by
      rw [hj]
      rintro ⟨front, c, back, hn, -⟩
      exact absurd hn (by simp)
    exact ⟨(ended hl).append hmore, not_mem_braces hp hbare⟩
  | @equation pieces later unit rest hi hw' hl hj h ih =>
    obtain ⟨-, hclosing⟩ := List.forall_mem_cons.1 hclosing
    obtain ⟨hj, hs⟩ := List.forall_mem_cons.1 hs
    obtain ⟨hmore, -⟩ := ih hclosing (List.forall_mem_nil _) hw hs
    exact ⟨(ended hl).append hmore, not_mem_braces hp hj⟩
  | @piece pieces later unit rest hc hi hw' hl h ih =>
    obtain ⟨hunit, hclosing⟩ := List.forall_mem_cons.1 hclosing
    obtain ⟨hmore, hpieces⟩ := ih hclosing
      (List.forall_mem_append.2 ⟨hp, List.forall_mem_singleton.2 hunit⟩) hw hs
    obtain ⟨hpieces, hu⟩ := List.forall_mem_append.1 hpieces
    have hunit : Enclosed [unit] :=
      enclosed_of_forall (List.forall_mem_singleton.2 (hu unit.text List.mem_cons_self))
    exact ⟨hunit.append hmore, hpieces⟩

end FormulaScript.Script
