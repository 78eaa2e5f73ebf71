import FormulaScript.Proofs.Script.Cursors
import FormulaScript.Proofs.Script.Marks
import FormulaScript.Proofs.Script.Swaps

/-!
# Where the texts of a draft come from

The texts of a draft are cut out of the units of its script and joined again with spaces. So a word
of such a text, which has no space, is a word of one of the units. If every unit closes the strings
that it opens, it is in a string of the text exactly if it is in a string of its unit.
-/

namespace FormulaScript.Script

open Text

/-! ## Joining -/

/-- The pieces that are joined leave out those of blanks. -/
theorem joinPieces_cons (piece : List Char) (pieces : List (List Char)) :
    trim piece = [] ∧ joinPieces (piece :: pieces) = joinPieces pieces ∨
      joinPieces pieces = [] ∧ joinPieces (piece :: pieces) = trim piece ∨
      joinPieces (piece :: pieces) = trim piece ++ ' ' :: joinPieces pieces := by
  by_cases ht : trim piece = []
  · exact .inl ⟨ht, by simp [joinPieces, ht]⟩
  · refine .inr ?_
    unfold joinPieces
    rw [List.map_cons, List.filter_cons_of_pos (by simpa using ht)]
    cases (pieces.map trim).filter (!·.isEmpty) with
    | nil => exact .inl ⟨rfl, by simp [List.intercalate]⟩
    | cons next others => exact .inr (intercalate_cons_cons ..)

/-- A word is on one side of a space. -/
theorem word_cases {front word back left right : List Char} (hn : word ≠ []) (hw : ' ' ∉ word)
    (h : left ++ ' ' :: right = front ++ word ++ back) :
    (∃ rest, left = front ++ word ++ rest) ∨
      ∃ start, front = left ++ ' ' :: start ∧ right = start ++ word ++ back := by
  rcases List.append_eq_append_iff.1 h with ⟨more, hl, hr⟩ | ⟨more, hl, -⟩
  · rcases List.append_eq_append_iff.1 hl with ⟨part, rfl, rfl⟩ | ⟨part, rfl, rfl⟩
    · cases more with
      | nil => exact .inl ⟨[], by simp⟩
      | cons c more =>
        obtain ⟨rfl, -⟩ := List.cons.inj hr
        exact absurd (List.mem_append_right _ List.mem_cons_self) hw
    · cases part with
      | nil =>
        obtain ⟨c, rest, rfl⟩ := List.exists_cons_of_ne_nil hn
        obtain ⟨rfl, -⟩ := List.cons.inj hr
        exact absurd List.mem_cons_self hw
      | cons c part =>
        obtain ⟨rfl, rfl⟩ := List.cons.inj hr
        exact .inr ⟨part, rfl, rfl⟩
  · exact .inl ⟨more, hl⟩

/-! ## Slices -/

/-- What is asked of a piece and of what stands behind it in its unit. -/
abbrev Cutting := List Char → List Char → Prop

/-- The pieces are cut out of units, one of each. No quote stands in front of any in its unit, and
none behind any but the last. -/
inductive Sliced (us : List SourceUnit) (cutting : Cutting) : List (List Char) → Prop
  | nil : Sliced us cutting []
  | cons {unit : SourceUnit} {before piece after : List Char} {pieces : List (List Char)} :
      unit ∈ us → unit.text = before ++ piece ++ after → '"' ∉ before →
      (pieces ≠ [] → '"' ∉ after) → cutting piece after → Sliced us cutting pieces →
      Sliced us cutting (piece :: pieces)

variable {us : List SourceUnit} {cutting : Cutting} {pieces : List (List Char)}

/-- Every unit closes the strings that it opens. -/
def Closing (us : List SourceUnit) : Prop := ∀ unit ∈ us, ¬ EndsInString unit.text

/-- The word stands in a unit, at a place that is in a string exactly if the end of the text in
front of it is. A piece ends with the word, and may be followed by more, if the unit does. -/
structure Traced (us : List SourceUnit) (cutting : Cutting) (front word : List Char)
    (unit : SourceUnit) (before after : List Char) : Prop where
  mem : unit ∈ us
  text : unit.text = before ++ word ++ after
  cut : ∃ piece inner outer, after = inner ++ outer ∧ cutting piece outer ∧ word ++ inner <:+ piece
  string : Closing us → (EndsInString front ↔ EndsInString before)

theorem endsInString_append {left : List Char} (h : ¬ EndsInString left) (right : List Char) :
    EndsInString (left ++ right) ↔ EndsInString right := by
  rw [EndsInString, List.count_append, Nat.odd_add']
  exact iff_true_right (Nat.not_odd_iff_even.1 h)

theorem not_endsInString_of_not_mem {text : List Char} (h : '"' ∉ text) : ¬ EndsInString text := by
  rw [EndsInString, List.count_eq_zero.2 h]
  decide

theorem exists_traced_of_trim {unit : SourceUnit} {before piece after front word back : List Char}
    (hu : unit ∈ us) (ht : unit.text = before ++ piece ++ after) (hb : '"' ∉ before)
    (hc : cutting piece after) (h : trim piece = front ++ word ++ back) :
    ∃ before after, Traced us cutting front word unit before after := by
  obtain ⟨left, right, hl, hr, hp⟩ := exists_trim piece
  rw [h] at hp
  refine ⟨before ++ (left ++ front), back ++ right ++ after, hu, ?_, ⟨piece, back ++ right, after,
    rfl, hc, left ++ front, ?_⟩, fun _ => ?_⟩
  · rw [ht, hp]
    simp
  · rw [hp]
    simp
  · rw [endsInString_append (not_endsInString_of_not_mem hb), endsInString_append_of_blank hl]

/-- A piece of a unit without quotes around it closes its strings if the unit does. -/
theorem not_endsInString_trim {before piece after : List Char}
    (h : ¬ EndsInString (before ++ piece ++ after)) (hb : '"' ∉ before) (ha : '"' ∉ after) :
    ¬ EndsInString (trim piece) := by
  obtain ⟨left, right, hl, hr, hp⟩ := exists_trim piece
  unfold EndsInString at h ⊢
  have hcount : (before ++ piece ++ after).count '"' = (trim piece).count '"' := by
    conv_lhs => rw [hp]
    simp [List.count_eq_zero.2 hb, List.count_eq_zero.2 ha, count_of_blank hl, count_of_blank hr]
  rwa [hcount] at h

/-- The induction is on the pieces: a word of the joined text is in the first or in the others,
which start after complete strings. -/
theorem Sliced.exists_traced (h : Sliced us cutting pieces) {front word back : List Char}
    (hj : joinPieces pieces = front ++ word ++ back) (hn : word ≠ []) (hw : ' ' ∉ word) :
    ∃ unit before after, Traced us cutting front word unit before after := by
  have hnil (front : List Char) : joinPieces [] ≠ front ++ word ++ back := fun h =>
    hn (List.append_eq_nil_iff.1 (List.append_eq_nil_iff.1 h.symm).1).2
  induction h generalizing front with
  | nil => exact absurd hj (hnil front)
  | @cons unit before piece after pieces hu ht hb ha hc _ ih =>
    rcases joinPieces_cons piece pieces with ⟨-, h⟩ | ⟨-, h⟩ | h
    · exact ih (h ▸ hj)
    · exact ⟨unit, exists_traced_of_trim hu ht hb hc (h ▸ hj)⟩
    · rcases word_cases hn hw (h ▸ hj) with ⟨rest, hp⟩ | ⟨start, rfl, hs⟩
      · exact ⟨unit, exists_traced_of_trim hu ht hb hc hp⟩
      · obtain ⟨unit', before', after', hm, ht', hc', hs'⟩ := ih hs
        refine ⟨unit', before', after', hm, ht', hc', fun hclosing => ?_⟩
        have hmore : pieces ≠ [] := by
          rintro rfl
          exact hnil start hs
        have hpiece : ¬ EndsInString (trim piece) :=
          not_endsInString_trim (ht ▸ hclosing unit hu) hb (ha hmore)
        rw [← hs' hclosing, endsInString_append hpiece]
        have hspace : ¬ EndsInString [' '] := by decide
        exact endsInString_append hspace start

/-! ## Conditions -/

/-- The text is a part of a unit, with no quote around it. -/
def Within (us : List SourceUnit) (text : List Char) : Prop :=
  ∃ unit ∈ us, ∃ before after, unit.text = before ++ text ++ after ∧ '"' ∉ before ∧ '"' ∉ after

theorem not_mem_of_blank {blanks : List Char} (h : ∀ c ∈ blanks, isBlank c) : '"' ∉ blanks :=
  fun hq => absurd (h _ hq) (by decide)

theorem within_of_mem {unit : SourceUnit} (h : unit ∈ us) : Within us unit.text :=
  ⟨unit, h, [], [], by simp, List.not_mem_nil, List.not_mem_nil⟩

theorem Within.of_append {text before after : List Char} (h : Within us (before ++ text ++ after))
    (hb : '"' ∉ before) (ha : '"' ∉ after) : Within us text := by
  obtain ⟨unit, hu, left, right, ht, hl, hr⟩ := h
  refine ⟨unit, hu, left ++ before, after ++ right, by simp [ht], ?_, ?_⟩
  · simpa using ⟨hl, hb⟩
  · simpa using ⟨ha, hr⟩

theorem Within.trim {text : List Char} (h : Within us text) : Within us (Text.trim text) := by
  obtain ⟨before, after, hb, ha, ht⟩ := exists_trim text
  exact Within.of_append (ht ▸ h) (not_mem_of_blank hb) (not_mem_of_blank ha)

theorem Within.drop {text word : List Char} (h : Within us (word ++ text)) (hw : '"' ∉ word) :
    Within us text := by
  have h : Within us (word ++ text ++ []) := by rwa [List.append_nil]
  exact h.of_append hw List.not_mem_nil

theorem Within.afterKeyword {keyword : String} {text rest : List Char} (h : Within us text)
    (hk : '"' ∉ keyword.toList) (ha : afterKeyword keyword text = some rest) : Within us rest := by
  unfold Script.afterKeyword at ha
  split at ha
  · next hp =>
    obtain ⟨more, rfl⟩ := List.isPrefixOf_iff_prefix.1 hp
    dsimp only at ha
    split at ha
    · cases ha
      rw [drop_word]
      exact (h.drop hk).trim
    · cases ha
  · cases ha

theorem Within.afterElseIf {text rest : List Char} (h : Within us text)
    (ha : afterElseIf text = some rest) : Within us rest := by
  unfold Script.afterElseIf at ha
  split at ha
  · next hp =>
    obtain ⟨gap, rfl⟩ := List.isPrefixOf_iff_prefix.1 hp
    rw [drop_word] at ha
    dsimp only at ha
    split at ha
    · next hc =>
      simp only [Bool.and_eq_true, decide_eq_true_eq] at hc
      obtain ⟨more, hm⟩ := List.isPrefixOf_iff_prefix.1 hc.1.2
      cases ha
      obtain ⟨blanks, hb, hg⟩ := exists_trimLeft gap
      have hgap : Within us (blanks ++ trimLeft gap) := hg ▸ h.drop (by decide)
      rw [← hm, drop_word]
      rw [← hm] at hgap
      exact ((hgap.drop (not_mem_of_blank hb)).drop (by decide)).trim
    · cases ha
  · cases ha

/-- Any cut, as those of conditions are. -/
def anyCut : Cutting := fun _ _ => True

theorem sliced_readPieces {level line : Nat} {text after : List Char} {units : List SourceUnit}
    {cursor : UnitCursor} (ht : Within us text) (hs : units ⊆ us)
    (h : readPieces level line text units = .ok (pieces, after, cursor)) :
    Sliced us anyCut pieces := by
  have closed {level : Nat} {text before after : List Char} (ht : Within us text)
      (h : scanParentheses level text = .closed before after) : Sliced us anyCut [before] := by
    obtain ⟨unit, hu, left, right, ht, hl, -⟩ := ht
    have htext : unit.text = left ++ before ++ (')' :: after ++ right) := by
      rw [ht, eq_of_closed h]
      simp
    refine .cons hu htext hl ?_ trivial .nil
    · exact fun hn => absurd rfl hn
  induction units generalizing level line text pieces with
  | nil =>
    unfold readPieces at h
    split at h
    · next hc =>
      cases h
      exact closed ht hc
    · cases h
  | cons unit rest ih =>
    obtain ⟨hunit, hs⟩ := List.cons_subset.1 hs
    unfold readPieces at h
    split at h
    · next hc =>
      cases h
      exact closed ht hc
    · next left _ =>
      obtain ⟨⟨inner, tail, cursor'⟩, hr, h⟩ := map_eq_ok.1 h
      cases h
      obtain ⟨unit', hu, before, after, ht, hb, ha⟩ := ht
      exact .cons hu ht hb (fun _ => ha) trivial (ih (within_of_mem hunit) hs hr)

theorem within_conditionStart {text rest : List Char} {cursor start : UnitCursor}
    (ht : Within us text) (hs : cursor.units ⊆ us)
    (h : conditionStart text cursor = ('(' :: rest, start)) :
    Within us rest ∧ start.units ⊆ us := by
  have hstart : start.units ⊆ us := by
    have hsuffix := conditionStart_suffix text cursor
    rw [h] at hsuffix
    exact fun _ hm => hs (hsuffix.subset hm)
  have hopening : '"' ∉ ['('] := by decide
  refine ⟨?_, hstart⟩
  unfold conditionStart at h
  split at h
  · split at h
    · cases h
    · next unit others heq =>
      have ht : unit.text = '(' :: rest := congrArg Prod.fst h
      have hunit : Within us ('(' :: rest) := ht ▸ within_of_mem (hs (heq ▸ List.mem_cons_self))
      exact Within.drop hunit hopening
  · cases h
    exact Within.drop ht hopening

/-- The text is joined from pieces of units. -/
def Drawn (us : List SourceUnit) (cutting : Cutting) (text : List Char) : Prop :=
  ∃ pieces, joinPieces pieces = text ∧ Sliced us cutting pieces

theorem drawn_readCondition {keyword : String} {text condition : List Char}
    {cursor opened : UnitCursor} (ht : Within us text) (hs : cursor.units ⊆ us)
    (h : readCondition keyword text cursor = .ok (condition, opened)) :
    Drawn us anyCut condition ∧ opened.units ⊆ us := by
  obtain ⟨rest, start, pieces, after, left, hstart, hp, -, rfl, -⟩ := readCondition_eq_ok.1 h
  obtain ⟨hr, hs'⟩ := within_conditionStart ht hs hstart
  exact ⟨⟨pieces, rfl, sliced_readPieces hr hs' hp⟩,
    fun _ hm => hs ((readCondition_suffix h).subset hm)⟩

/-! ## Blocks -/

theorem subset_of_readBlock {depth line : Nat} {units body : List SourceUnit} {cursor : UnitCursor}
    (h : readBlock depth line units = .ok (body, cursor)) :
    body ⊆ units ∧ cursor.units ⊆ units := by
  obtain ⟨unit, -, rfl⟩ := readBlock_eq_append h
  exact ⟨List.subset_append_left _ _, fun _ hm =>
    List.mem_append_right _ (List.mem_cons_of_mem _ hm)⟩

/-- The condition and the block of the branch come from the units. -/
structure Branch.From (us : List SourceUnit) (branch : Branch) : Prop where
  condition : Drawn us anyCut branch.condition
  body : branch.body ⊆ us

theorem from_readBranch {keyword : String} {line : Nat} {text : List Char}
    {cursor left : UnitCursor} {branch : Branch} (ht : Within us text) (hs : cursor.units ⊆ us)
    (h : readBranch keyword line text cursor = .ok (branch, left)) :
    branch.From us ∧ left.units ⊆ us := by
  obtain ⟨opened, hc, hb, -⟩ := exists_of_readBranch h
  obtain ⟨hcondition, ho⟩ := drawn_readCondition ht hs hc
  obtain ⟨hbody, hleft⟩ := subset_of_readBlock hb
  exact ⟨⟨hcondition, fun _ hm => ho (hbody hm)⟩, fun _ hm => ho (hleft hm)⟩

/-- The branches and blocks of the chain come from the units, and so do those after it. -/
structure Chain.From (us : List SourceUnit) (chain : Chain) : Prop where
  branches : ∀ branch ∈ chain.branches, branch.From us
  otherwise : ∀ body ∈ chain.otherwise, body ⊆ us
  cursor : chain.cursor.units ⊆ us

theorem from_readChain {cursor : UnitCursor} {chain : Chain} (hs : cursor.units ⊆ us)
    (h : readChain cursor = .ok chain) : chain.From us := by
  fun_induction readChain cursor generalizing chain with
  | case1 | case4 =>
    cases h
    refine ⟨List.forall_mem_nil _, ?_, hs⟩
    rintro _ ⟨⟩
  | case2 | case5 => cases h
  | case3 unit rest line _ _ =>
    obtain ⟨opened, body, left, ho, hb, -, rfl⟩ := exists_of_else h
    obtain ⟨hbody, hleft⟩ := subset_of_readBlock hb
    have hopened : opened.units ⊆ us := fun _ hm =>
      hs (List.mem_cons_of_mem _ ((openBlock_suffix ho).subset hm))
    refine ⟨List.forall_mem_nil _, ?_, fun _ hm => hopened (hleft hm)⟩
    rintro _ ⟨⟩ _ hm
    exact hopened (hbody hm)
  | case6 unit rest line _ _ text ht branch left hb ih =>
    obtain ⟨hunit, hs⟩ := List.cons_subset.1 hs
    obtain ⟨hbranch, hleft⟩ := from_readBranch ((within_of_mem hunit).afterElseIf ht) hs hb
    obtain ⟨inner, hc, rfl⟩ := map_eq_ok.1 h
    obtain ⟨hbranches, hotherwise, hcursor⟩ := ih hleft hc
    exact ⟨List.forall_mem_cons.2 ⟨hbranch, hbranches⟩, hotherwise, hcursor⟩

/-! ## Drafts -/

/-- A cut as those of statements are: a semicolon at the end of a unit is left out. -/
def unended : Cutting := fun piece after => after = [] → piece.getLast? ≠ some ';'

/-- The texts of the statements, in order. -/
def Draft.statements : Draft → List (List Char)
  | .done | .broken _ => []
  | .equation text _ rest => text :: rest.statements
  | .branch _ _ yes no rest => yes.statements ++ no.statements ++ rest.statements
  | .loop _ _ body rest => body.statements ++ rest.statements

/-- The texts of the draft come from the units. -/
structure Draft.From (us : List SourceUnit) (draft : Draft) : Prop where
  statements : ∀ text ∈ draft.statements, Drawn us unended text
  conditions : ∀ text ∈ draft.conditions, Drawn us anyCut text

theorem Draft.from_done : Draft.done.From us := ⟨List.forall_mem_nil _, List.forall_mem_nil _⟩

theorem Draft.from_broken (fault : Diagnostic) : (Draft.broken fault).From us :=
  ⟨List.forall_mem_nil _, List.forall_mem_nil _⟩

theorem Draft.From.branch {condition : List Char} {yes no rest : Draft}
    (hc : Drawn us anyCut condition) (hy : yes.From us) (hn : no.From us) (hr : rest.From us)
    (line : Nat) : (Draft.branch condition line yes no rest).From us where
  statements := List.forall_mem_append.2
    ⟨List.forall_mem_append.2 ⟨hy.statements, hn.statements⟩, hr.statements⟩
  conditions := List.forall_mem_cons.2 ⟨hc, List.forall_mem_append.2
    ⟨List.forall_mem_append.2 ⟨hy.conditions, hn.conditions⟩, hr.conditions⟩⟩

theorem Draft.from_ofChain {rest otherwise : Draft} {branches : List (List Char × Nat × Draft)}
    (hr : rest.From us) (ho : otherwise.From us)
    (hb : ∀ branch ∈ branches, Drawn us anyCut branch.1 ∧ branch.2.2.From us) :
    (Draft.ofChain rest otherwise branches).From us := by
  induction branches generalizing rest with
  | nil => exact ho
  | cons branch branches ih =>
    obtain ⟨condition, line, yes⟩ := branch
    obtain ⟨⟨hc, hy⟩, hb⟩ := List.forall_mem_cons.1 hb
    exact .branch hc hy (ih Draft.from_done hb) hr line

/-- The pieces of a statement that is not complete are whole units without a semicolon. -/
def Units (us : List SourceUnit) (pieces : List (List Char)) : Prop :=
  ∀ piece ∈ pieces, (∃ unit ∈ us, unit.text = piece) ∧ piece.getLast? ≠ some ';'

/-- With the rest of a unit that ends with its semicolon they are a statement. -/
theorem Units.sliced (h : Units us pieces) {unit : SourceUnit} (hu : unit ∈ us)
    (hl : unit.text.getLast? = some ';') :
    Sliced us unended (pieces ++ [unit.text.dropLast]) := by
  have hlast : unit.text = [] ++ unit.text.dropLast ++ [';'] := by
    have hne : unit.text ≠ [] := by
      rintro hn
      rw [hn] at hl
      cases hl
    have hg : unit.text.getLast hne = ';' := by
      rw [List.getLast?_eq_some_getLast hne] at hl
      exact Option.some.inj hl
    rw [List.nil_append, ← hg, List.dropLast_append_getLast]
  induction pieces with
  | nil => exact .cons hu hlast List.not_mem_nil (fun hn => absurd rfl hn) nofun .nil
  | cons piece pieces ih =>
    obtain ⟨⟨⟨unit', hu', rfl⟩, hl'⟩, hpieces⟩ := List.forall_mem_cons.1 h
    have ht : unit'.text = [] ++ unit'.text ++ [] := by simp
    exact .cons hu' ht List.not_mem_nil (fun _ => List.not_mem_nil) (fun _ => hl') (ih hpieces)

/-- The texts of a draft come from the units that it is read from, those of a statement that is not
complete among them. -/
theorem from_draft (topLevel : Bool) (line : Nat) (pieces : List (List Char))
    (units : List SourceUnit) (hp : Units us pieces) (hs : units ⊆ us) :
    (draft topLevel line pieces units).From us := by
  have hnil : Units us [] := List.forall_mem_nil _
  fun_induction draft topLevel line pieces units with
  | case1 => exact Draft.from_done
  | case8 _ _ _ unit rest _ text hi _ first left hb chain hc yes others lastLine otherwise after
      ihy ihb iho ihr =>
    obtain ⟨hunit, hs⟩ := List.cons_subset.1 hs
    obtain ⟨hfirst, hleft⟩ :=
      from_readBranch ((within_of_mem hunit).afterKeyword (by decide) hi) hs hb
    obtain ⟨hbranches, hotherwise, hcursor⟩ := from_readChain hleft hc
    have ho : otherwise.From us := by
      unfold otherwise
      split
      · exact Draft.from_done
      · next body hbody => exact iho body hbody hnil (hotherwise body hbody)
    refine Draft.from_ofChain (ihr hnil hcursor) ho
      (List.forall_mem_cons.2 ⟨⟨hfirst.condition, ihy hnil hfirst.body⟩, ?_⟩)
    intro other ho
    obtain ⟨⟨branch, hm⟩, -, rfl⟩ := List.mem_map.1 ho
    have hbranch := hbranches branch hm
    exact ⟨hbranch.condition, ihb branch hm hnil hbranch.body⟩
  | case11 _ _ _ unit rest _ text hw _ _ branch left hb ihb ihr =>
    obtain ⟨hunit, hs⟩ := List.cons_subset.1 hs
    obtain ⟨hbranch, hleft⟩ :=
      from_readBranch ((within_of_mem hunit).afterKeyword (by decide) hw) hs hb
    have hbody := ihb hnil hbranch.body
    have hrest := ihr hnil hleft
    exact ⟨List.forall_mem_append.2 ⟨hbody.statements, hrest.statements⟩,
      List.forall_mem_cons.2 ⟨hbranch.condition,
        List.forall_mem_append.2 ⟨hbody.conditions, hrest.conditions⟩⟩⟩
  | case12 _ _ _ unit rest _ _ _ hl text _ _ ih => exact ih hnil (List.cons_subset.1 hs).2
  | case13 _ _ _ unit rest _ _ _ hl text _ _ ih =>
    obtain ⟨hunit, hs⟩ := List.cons_subset.1 hs
    have hrest := ih hnil hs
    exact ⟨List.forall_mem_cons.2 ⟨⟨_, rfl, hp.sliced hunit hl⟩, hrest.statements⟩,
      hrest.conditions⟩
  | case14 _ _ _ unit rest _ _ _ hl ih =>
    obtain ⟨hunit, hs⟩ := List.cons_subset.1 hs
    exact ih (List.forall_mem_append.2
      ⟨hp, List.forall_mem_singleton.2 ⟨⟨unit, hunit, rfl⟩, hl⟩⟩) hs
  | _ => exact Draft.from_broken _

/-- The texts of a script come from its units. -/
theorem from_ofScript (script : List Char) : (Draft.ofScript script).From (units script) :=
  from_draft true 1 [] (units script) (List.forall_mem_nil _) (List.Subset.refl _)

end FormulaScript.Script
