import FormulaScript.Proofs.Script.Cursors
import FormulaScript.Proofs.Script.Provenance
import Mathlib.Data.List.Forall2

/-!
# The order of diagnostics

What is reported of a script is reported of the parts of its draft, one after another: the texts
that are parsed and the faults at which the reading of a block has stopped. A part is reported on
the line of a unit of its block, and the parts of a block stand in the order of its units. So the
diagnostics come in the order of their lines, though an `if` is parsed only after the unit behind it
has been read.
-/

namespace FormulaScript

/-- Whether the problem is one of the block structure of a script. -/
def Problem.isStructural : Problem → Bool
  | missingSemicolon _ | missingParenthesis _ | missingBraceAfterElse | missingBraceAfterCondition
  | textAfterCondition _ | emptyCondition | unmatchedBrace | unexpectedEndOfScript
  | unbalancedCondition | unbalancedBraces => true
  | _ => false

namespace Script

open Text

/-! ## Parts -/

/-- What is reported on in a draft: a text that is parsed, on the line that it is reported on, or a
fault at which the reading of a block has stopped. -/
inductive Part
  | statement (text : List Char) (line : Nat)
  | condition (text : List Char) (line : Nat)
  | broken (fault : Diagnostic)
deriving DecidableEq

/-- The line that the part is reported on. -/
def Part.line : Part → Option Nat
  | statement _ line | condition _ line => some line
  | broken fault => fault.line

/-- What is reported of the part. -/
def Part.report (vars : Variables) (autoAdd : Bool) : Part → List Diagnostic
  | statement text line => (parseEquation text line vars autoAdd).diagnostics
  | condition text line => (parseTest text line vars autoAdd).diagnostics
  | broken fault => [fault]

/-- The parts of a draft, in the order of the script. -/
def Draft.parts : Draft → List Part
  | done => []
  | broken fault => [.broken fault]
  | equation text line rest => .statement text line :: rest.parts
  | branch condition line yes no rest =>
    .condition condition line :: (yes.parts ++ (no.parts ++ rest.parts))
  | loop condition line body rest => .condition condition line :: (body.parts ++ rest.parts)

/-- Over a fixed list of variables the reports are those of the parts. -/
theorem Draft.diagnostics_eq_flatMap (draft : Draft) (vars : Variables) :
    draft.diagnostics vars = draft.parts.flatMap (·.report vars false) := by
  induction draft with
  | done | broken => rfl
  | equation text line rest ih =>
    simp only [diagnostics, assemble, vars_parseEquation, ih, parts, List.flatMap_cons, Part.report]
  | branch condition line yes no rest ihy ihn ihr =>
    simp only [diagnostics, assemble, vars_parseTest, vars_assemble, ihy, ihn, ihr, parts,
      List.flatMap_cons, List.flatMap_append, Part.report, List.append_assoc]
  | loop condition line body rest ihb ihr =>
    simp only [diagnostics, assemble, vars_parseTest, vars_assemble, ihb, ihr, parts,
      List.flatMap_cons, List.flatMap_append, Part.report, List.append_assoc]

/-- The report is one of the part, over the variables that there are when its turn comes. -/
def Part.Reported (autoAdd : Bool) (part : Part) (report : List Diagnostic) : Prop :=
  ∃ vars, report = part.report vars autoAdd

/-- There is one report for each part, also when names are added. -/
theorem Draft.exists_reports (draft : Draft) (vars : Variables) (autoAdd : Bool) :
    ∃ reports, List.Forall₂ (Part.Reported autoAdd) draft.parts reports ∧
      (draft.assemble autoAdd vars).diagnostics = reports.flatten := by
  induction draft generalizing vars with
  | done => exact ⟨[], .nil, rfl⟩
  | broken fault => exact ⟨[[fault]], .cons ⟨vars, rfl⟩ .nil, rfl⟩
  | equation text line rest ih =>
    obtain ⟨reports, hr, hd⟩ := ih (parseEquation text line vars autoAdd).vars
    exact ⟨_ :: reports, .cons ⟨vars, rfl⟩ hr, congrArg _ hd⟩
  | branch condition line yes no rest ihy ihn ihr =>
    obtain ⟨yesReports, hy, hyd⟩ := ihy (parseTest condition line vars autoAdd).vars
    obtain ⟨noReports, hn, hnd⟩ := ihn (yes.assemble autoAdd _).vars
    obtain ⟨reports, hr, hrd⟩ := ihr (no.assemble autoAdd _).vars
    refine ⟨_ :: (yesReports ++ (noReports ++ reports)),
      .cons ⟨vars, rfl⟩ (List.rel_append hy (List.rel_append hn hr)), ?_⟩
    rw [List.flatten_cons, List.flatten_append, List.flatten_append, ← hyd, ← hnd, ← hrd]
    simp only [assemble, List.append_assoc]
    rfl
  | loop condition line body rest ihb ihr =>
    obtain ⟨bodyReports, hb, hbd⟩ := ihb (parseTest condition line vars autoAdd).vars
    obtain ⟨reports, hr, hrd⟩ := ihr (body.assemble autoAdd _).vars
    refine ⟨_ :: (bodyReports ++ reports), .cons ⟨vars, rfl⟩ (List.rel_append hb hr), ?_⟩
    rw [List.flatten_cons, List.flatten_append, ← hbd, ← hrd]
    simp only [assemble, List.append_assoc]
    rfl

/-- All of a report stands on the line of its part. -/
theorem Part.line_of_mem_report {part : Part} {vars : Variables} {autoAdd : Bool} {d : Diagnostic}
    (h : d ∈ part.report vars autoAdd) : d.line = part.line := by
  have stamped {text : List Char} {line : Nat}
      (h : d ∈ (Expr.parse text vars autoAdd).diagnostics.map (·.atLine line)) :
      d.line = some line := by
    obtain ⟨d', hd, rfl⟩ := List.mem_map.1 h
    rw [Diagnostic.atLine, Expr.line_of_mem_parse hd]
    rfl
  cases part with
  | statement text line =>
    simp only [report, parseEquation] at h
    split at h
    · cases h
    · rcases List.mem_cons.1 h with rfl | h
      · rfl
      · exact stamped h
  | condition text line => exact stamped h
  | broken fault => exact congrArg _ (List.mem_singleton.1 h)

/-! ## Lines in order -/

/-- The units stand on lines in order. -/
abbrev Sorted (us : List SourceUnit) : Prop := us.Pairwise (·.line ≤ ·.line)

/-- The part is reported on the line of one of the units. A fault is one of the block structure. -/
def Part.On (us : List SourceUnit) : Part → Prop
  | statement _ line | condition _ line => ∃ unit ∈ us, line = unit.line
  | broken diagnostic => ∃ unit ∈ us, ∃ problem : Problem,
    problem.isStructural ∧ diagnostic = fault problem unit.line

/-- The parts are reported on lines in order, and on those of the units. -/
structure Ordered (us : List SourceUnit) (parts : List Part) : Prop where
  sorted : parts.Pairwise fun a b => ∀ m ∈ a.line, ∀ n ∈ b.line, m ≤ n
  on : ∀ part ∈ parts, part.On us

variable {us vs : List SourceUnit} {parts parts' : List Part} {part : Part} {unit : SourceUnit}

theorem Part.On.mono (h : part.On us) (hs : us ⊆ vs) : part.On vs := by
  cases part with
  | statement | condition | broken => exact h.imp fun _ hu => hu.imp_left (hs ·)

theorem Part.On.exists_unit (h : part.On us) : ∃ unit ∈ us, part.line = some unit.line := by
  cases part with
  | statement | condition => exact h.imp fun _ hu => hu.imp_right (congrArg some)
  | broken fault =>
    obtain ⟨unit, hu, problem, -, rfl⟩ := h
    exact ⟨unit, hu, rfl⟩

theorem ordered_nil (us : List SourceUnit) : Ordered us [] := ⟨.nil, List.forall_mem_nil _⟩

theorem ordered_singleton (h : part.On us) : Ordered us [part] :=
  ⟨List.pairwise_singleton _ _, List.forall_mem_singleton.2 h⟩

theorem ordered_statement (unit : SourceUnit) (text : List Char) :
    Ordered [unit] [.statement text unit.line] :=
  ordered_singleton ⟨unit, List.mem_singleton_self unit, rfl⟩

theorem ordered_condition (unit : SourceUnit) (text : List Char) :
    Ordered [unit] [.condition text unit.line] :=
  ordered_singleton ⟨unit, List.mem_singleton_self unit, rfl⟩

theorem Ordered.mono (h : Ordered us parts) (hs : us ⊆ vs) : Ordered vs parts where
  sorted := h.sorted
  on part hp := (h.on part hp).mono hs

/-- The parts of some units and then those of units that come later. -/
theorem Ordered.append (h : Ordered us parts) (h' : Ordered vs parts') (hs : Sorted (us ++ vs)) :
    Ordered (us ++ vs) (parts ++ parts') where
  sorted := by
    refine List.pairwise_append.2 ⟨h.sorted, h'.sorted, fun a ha b hb m hm n hn => ?_⟩
    obtain ⟨u, hu, hl⟩ := (h.on a ha).exists_unit
    obtain ⟨v, hv, hl'⟩ := (h'.on b hb).exists_unit
    rw [hl] at hm
    rw [hl'] at hn
    cases hm
    cases hn
    exact (List.pairwise_append.1 hs).2.2 u hu v hv
  on := List.forall_mem_append.2 ⟨(h.mono (List.subset_append_left us vs)).on,
    (h'.mono (List.subset_append_right us vs)).on⟩

theorem exists_part_of_mem_flatten {reports : List (List Diagnostic)} {autoAdd : Bool}
    (hr : List.Forall₂ (Part.Reported autoAdd) parts reports) :
    ∀ d ∈ reports.flatten, ∃ part ∈ parts, d.line = part.line := by
  induction hr with
  | nil => exact List.forall_mem_nil _
  | @cons part _ _ _ hp _ ih =>
    obtain ⟨vars, rfl⟩ := hp
    refine List.forall_mem_append.2 ⟨fun d hd => ?_, fun d hd => ?_⟩
    · exact ⟨part, List.mem_cons_self, Part.line_of_mem_report hd⟩
    · exact (ih d hd).imp fun _ hq => hq.imp_left (List.mem_cons_of_mem part)

/-- Diagnostics are in order if the parts are that they are reported of. -/
theorem Ordered.pairwise_flatten {reports : List (List Diagnostic)} {autoAdd : Bool}
    (h : Ordered us parts) (hr : List.Forall₂ (Part.Reported autoAdd) parts reports) :
    reports.flatten.Pairwise fun d e => ∀ m ∈ d.line, ∀ n ∈ e.line, m ≤ n := by
  have hs := h.sorted
  clear h
  induction hr with
  | nil => exact .nil
  | cons hp hr ih =>
    obtain ⟨hfirst, hrest⟩ := List.pairwise_cons.1 hs
    obtain ⟨vars, rfl⟩ := hp
    refine List.pairwise_append.2 ⟨?_, ih hrest, fun d hd e he => ?_⟩
    · -- all of the report stands on one line
      refine List.pairwise_of_forall_mem_list fun d hd e he m hm n hn => ?_
      rw [Part.line_of_mem_report hd] at hm
      rw [Part.line_of_mem_report he] at hn
      exact Nat.le_of_eq (Option.mem_unique hm hn)
    · obtain ⟨part, hp, hl⟩ := exists_part_of_mem_flatten hr e he
      rw [Part.line_of_mem_report hd, hl]
      exact hfirst part hp

/-! ## Readers -/

/-- The cursor is among the units: what is left to read are some of them, and so is the last one
that was read. -/
structure Among (us : List SourceUnit) (cursor : UnitCursor) : Prop where
  units : cursor.units ⊆ us
  line : ∃ unit ∈ us, cursor.line = unit.line

/-- The result is of the given kind, or a fault on the line of a unit. -/
def Lands (us : List SourceUnit) (kind : α → Prop) : Except Diagnostic α → Prop
  | .ok a => kind a
  | .error problem => (Part.broken problem).On us

variable {kind : α → Prop} {result : Except Diagnostic α} {cursor : UnitCursor}

theorem Lands.of_error (h : Lands us kind result) (hr : result = .error problem) :
    (Part.broken problem).On us := by
  rwa [hr] at h

theorem Lands.of_ok (h : Lands us kind result) (hr : result = .ok a) : kind a := by
  rwa [hr] at h

theorem Lands.map {kind' : β → Prop} {f : α → β} (h : Lands us kind result)
    (hf : ∀ a, kind a → kind' (f a)) : Lands us kind' (result.map f) := by
  cases result with
  | ok a => exact hf a h
  | error problem => exact h

theorem Lands.bind {kind' : β → Prop} {f : α → Except Diagnostic β} (h : Lands us kind result)
    (hf : ∀ a, kind a → Lands us kind' (f a)) : Lands us kind' (result >>= f) := by
  cases result with
  | ok a => exact hf a h
  | error problem => exact h

theorem on_fault {problem : Problem} (hu : unit ∈ us)
    (h : problem.isStructural) :
    (Part.broken (fault problem unit.line)).On us := ⟨unit, hu, problem, h, rfl⟩

theorem Among.fault {problem : Problem} (h : Among us cursor)
    (hp : problem.isStructural) :
    (Part.broken (fault problem cursor.line)).On us := by
  obtain ⟨unit, hu, hl⟩ := h.line
  exact hl ▸ on_fault hu hp

/-- The next unit has been read. -/
theorem Among.advance {rest : List SourceUnit} {line : Nat} (h : Among us ⟨unit :: rest, line⟩) :
    Among us ⟨rest, unit.line⟩ :=
  have ⟨hu, hr⟩ := List.cons_subset.1 h.units
  ⟨hr, unit, hu, rfl⟩

theorem lands_readBlock {depth line : Nat} {vs : List SourceUnit} (h : Among us ⟨vs, line⟩) :
    Lands us (fun result => Among us result.2) (readBlock depth line vs) := by
  induction vs generalizing depth line with
  | nil => exact h.fault rfl
  | cons unit rest ih =>
    unfold readBlock
    split
    · split
      · exact h.advance
      · exact (ih h.advance).map fun _ ha => ha
    · exact (ih h.advance).map fun _ ha => ha

theorem lands_openBlock {problem : Problem} (h : Among us cursor)
    (hp : problem.isStructural) :
    Lands us (Among us) (openBlock problem cursor) := by
  obtain ⟨vs, line⟩ := cursor
  cases vs with
  | nil => exact h.fault hp
  | cons unit rest =>
    change Lands us (Among us)
      (if unit.text = openingBrace then .ok ⟨rest, unit.line⟩ else .error (fault problem unit.line))
    split
    · exact h.advance
    · exact h.advance.fault hp

theorem lands_readPieces {level line : Nat} {text : List Char} {vs : List SourceUnit}
    (h : Among us ⟨vs, line⟩) :
    Lands us (fun result => Among us result.2.2) (readPieces level line text vs) := by
  induction vs generalizing level line text with
  | nil =>
    rw [readPieces]
    split
    · exact h
    · exact h.fault rfl
  | cons unit rest ih =>
    rw [readPieces]
    split
    · exact h
    · exact (ih h.advance).map fun _ ha => ha

theorem among_conditionStart (h : Among us cursor) (text : List Char) :
    Among us (conditionStart text cursor).2 := by
  obtain ⟨vs, line⟩ := cursor
  unfold conditionStart
  split
  · cases vs with
    | nil => exact h
    | cons unit rest => exact h.advance
  · exact h

theorem lands_readCondition (h : Among us cursor) (keyword : String) (text : List Char) :
    Lands us (fun result => Among us result.2) (readCondition keyword text cursor) := by
  have hstart := among_conditionStart h text
  cases hs : conditionStart text cursor with | mk first start
  rw [hs] at hstart
  by_cases hf : first.head? = some '('
  · obtain ⟨rest, rfl⟩ := List.head?_eq_some_iff.1 hf
    rw [readCondition_of_start hs]
    have hp : Lands us (fun result => Among us result.2.2)
        (readPieces 1 start.line rest start.units) := lands_readPieces hstart
    cases hr : readPieces 1 start.line rest start.units with
    | error problem => exact hp.of_error hr
    | ok result =>
      obtain ⟨pieces, after, left⟩ := result
      have hleft : Among us left := hp.of_ok hr
      dsimp only
      split
      · exact hleft.fault rfl
      · split
        · exact hleft.fault rfl
        · exact (lands_openBlock hleft rfl).map fun _ ha => ha
  · rw [readCondition_of_missing hs hf]
    exact hstart.fault rfl

theorem lands_readBranch (h : Among us cursor) (keyword : String) (line : Nat) (text : List Char) :
    Lands us (fun result => Among us result.2) (readBranch keyword line text cursor) := by
  have hc := lands_readCondition h keyword text
  unfold readBranch
  split
  · next hr => exact hc.of_error hr
  · next hr => exact (lands_readBlock (hc.of_ok hr)).map fun _ ha => ha

theorem lands_readChain (h : Among us cursor) :
    Lands us (fun chain => Among us chain.cursor) (readChain cursor) := by
  induction hsize : cursor.units.length using Nat.strongRecOn generalizing cursor with
  | _ size ih
  obtain ⟨vs, line⟩ := cursor
  cases vs with
  | nil =>
    rw [readChain]
    exact h
  | cons unit rest =>
    rw [readChain_cons]
    split
    · exact h.advance.fault rfl
    · split
      · refine (lands_openBlock h.advance rfl).bind fun opened ho => ?_
        refine (lands_readBlock ho).bind fun result hl => ?_
        obtain ⟨body, left⟩ := result
        dsimp only at hl ⊢
        split
        · next next hn =>
          split
          · exact on_fault (hl.units (List.mem_of_mem_head? hn)) rfl
          · exact hl
        · exact hl
      · split
        · exact h
        · next text ht =>
          have hb := lands_readBranch h.advance "else if" unit.line text
          cases hr : readBranch "else if" unit.line text ⟨rest, unit.line⟩ with
          | error problem => exact hb.of_error hr
          | ok result =>
            obtain ⟨branch, left⟩ := result
            have hlength : left.units.length < size := by
              have := readBranch_length hr
              simp only [List.length_cons] at this hsize
              omega
            have hleft : Among us left := hb.of_ok hr
            exact (ih _ hlength hleft rfl).bind fun chain hc => hc

/-- The units of a block come before those that are left. -/
theorem sublist_of_readBlock {depth line : Nat} {body vs : List SourceUnit}
    (h : readBlock depth line vs = .ok (body, cursor)) : (body ++ cursor.units).Sublist vs := by
  obtain ⟨closing, -, hu⟩ := readBlock_eq_append h
  rw [hu]
  exact (List.Sublist.refl body).append (List.sublist_cons_self closing cursor.units)

theorem readChain_suffix {chain : Chain} (h : readChain cursor = .ok chain) :
    chain.cursor.units <:+ cursor.units :=
  (closes_readChain h).elim (fun heq => heq ▸ List.suffix_refl _) Closes.suffix

/-! ## Drafts -/

/-- The parts of every block of at most so many units are in order. -/
def BlocksOrdered (n : Nat) : Prop :=
  ∀ (body : List SourceUnit) (line : Nat), body.length ≤ n → Sorted body →
    Ordered body (draft false line [] body).parts

theorem BlocksOrdered.mono (h : BlocksOrdered n) (hm : m ≤ n) : BlocksOrdered m :=
  fun body line hl hs => h body line (Nat.le_trans hl hm) hs

theorem parts_chain_cons (branch : Branch) (chain : Chain) (lastLine : Nat) :
    (Chain.draft { chain with branches := branch :: chain.branches } lastLine).parts =
      .condition branch.condition branch.line ::
        ((draft false branch.line [] branch.body).parts ++ (chain.draft lastLine).parts) := by
  change (Draft.branch branch.condition branch.line _ (chain.draft lastLine) .done).parts = _
  rw [Draft.parts, show Draft.done.parts = [] from rfl, List.append_nil]

/-- The units of the block of a branch come before those that are left. -/
theorem sublist_of_readBranch {keyword : String} {line : Nat} {text : List Char}
    {left : UnitCursor} {branch : Branch}
    (h : readBranch keyword line text cursor = .ok (branch, left)) :
    (branch.body ++ left.units).Sublist cursor.units := by
  obtain ⟨opened, hc, hb, -⟩ := exists_of_readBranch h
  exact (sublist_of_readBlock hb).trans (readCondition_suffix hc).sublist

/-- The parts of a chain are in order, on units that come before those that are left. -/
theorem exists_ordered_chain {chain : Chain} (hb : BlocksOrdered cursor.units.length)
    (hs : Sorted cursor.units) (h : readChain cursor = .ok chain) :
    ∃ taken, (taken ++ chain.cursor.units).Sublist cursor.units ∧
      ∀ lastLine, Ordered taken (chain.draft lastLine).parts := by
  fun_induction readChain cursor generalizing chain with
  | case1 | case4 =>
    cases h
    exact ⟨[], List.Sublist.refl _, fun _ => ordered_nil []⟩
  | case2 | case5 => cases h
  | case3 unit rest line _ _ =>
    obtain ⟨opened, body, left, ho, hbody, -, rfl⟩ := exists_of_else h
    have hsub : (body ++ left.units).Sublist (unit :: rest) := (sublist_of_readBlock hbody).trans
      ((openBlock_suffix ho).trans (List.suffix_cons unit rest)).sublist
    have hbodySub := (List.sublist_append_left body left.units).trans hsub
    exact ⟨body, hsub, fun lastLine => hb body lastLine hbodySub.length_le (hs.sublist hbodySub)⟩
  | case6 unit rest line _ _ text _ branch left hbranch ih =>
    obtain ⟨inner, hc, rfl⟩ := map_eq_ok.1 h
    obtain ⟨opened, -, -, hline⟩ := exists_of_readBranch hbranch
    have hread : (branch.body ++ left.units).Sublist rest := sublist_of_readBranch hbranch
    have hbody := (List.sublist_append_left branch.body left.units).trans hread
    have hleft := ((List.sublist_append_right branch.body left.units).trans hread).cons unit
    obtain ⟨taken, ht, hordered⟩ := ih (hb.mono hleft.length_le) (hs.sublist hleft) hc
    have hsub : (unit :: (branch.body ++ taken) ++ inner.cursor.units).Sublist (unit :: rest) := by
      rw [List.cons_append, List.append_assoc]
      exact (((List.Sublist.refl branch.body).append ht).trans hread).cons_cons unit
    refine ⟨unit :: (branch.body ++ taken), hsub, fun lastLine => ?_⟩
    have htaken := hs.sublist ((List.sublist_append_left _ _).trans hsub)
    have hyes : Ordered branch.body (draft false branch.line [] branch.body).parts :=
      hb _ _ (hbody.cons unit).length_le (hs.sublist (hbody.cons unit))
    rw [parts_chain_cons, hline]
    exact (ordered_condition unit _).append
      (hline ▸ hyes.append (hordered lastLine) (List.pairwise_cons.1 htaken).2) htaken

/-- The parts of an `if` and of what comes after it. -/
theorem ordered_if {text : List Char} {rest : List SourceUnit} {first : Branch}
    {left : UnitCursor} {chain : Chain} {after : Draft} (hb : BlocksOrdered rest.length)
    (hs : Sorted (unit :: rest))
    (hfirst : readBranch "if" unit.line text ⟨rest, unit.line⟩ = .ok (first, left))
    (hchain : readChain left = .ok chain) (ha : Ordered chain.cursor.units after.parts)
    (lastLine : Nat) :
    Ordered (unit :: rest) (Draft.branch first.condition unit.line
      (draft false unit.line [] first.body) (chain.draft lastLine) after).parts := by
  have hread : (first.body ++ left.units).Sublist rest := sublist_of_readBranch hfirst
  have hbody := (List.sublist_append_left first.body left.units).trans hread
  have hleft := (List.sublist_append_right first.body left.units).trans hread
  have hsrest := (List.pairwise_cons.1 hs).2
  obtain ⟨taken, ht, hordered⟩ :=
    exists_ordered_chain (hb.mono hleft.length_le) (hsrest.sublist hleft) hchain
  have hsub := (((List.Sublist.refl first.body).append ht).trans hread).cons_cons unit
  have hsorted := hs.sublist hsub
  have hinner := (List.pairwise_cons.1 hsorted).2
  have hyes := hb first.body unit.line hbody.length_le (hsrest.sublist hbody)
  have hno := (hordered lastLine).append ha (List.pairwise_append.1 hinner).2.1
  exact ((ordered_condition unit _).append (hyes.append hno hinner) hsorted).mono hsub.subset

/-- The parts of a `while` and of what comes after it. -/
theorem ordered_while {text : List Char} {rest : List SourceUnit} {branch : Branch}
    {left : UnitCursor} {after : Draft} (hb : BlocksOrdered rest.length)
    (hs : Sorted (unit :: rest))
    (hbranch : readBranch "while" unit.line text ⟨rest, unit.line⟩ = .ok (branch, left))
    (ha : Ordered left.units after.parts) :
    Ordered (unit :: rest) (Draft.loop branch.condition unit.line
      (draft false unit.line [] branch.body) after).parts := by
  have hread : (branch.body ++ left.units).Sublist rest := sublist_of_readBranch hbranch
  have hbody := (List.sublist_append_left branch.body left.units).trans hread
  have hsub := hread.cons_cons unit
  have hsorted := hs.sublist hsub
  have hinner := (List.pairwise_cons.1 hsorted).2
  have hloop := hb branch.body unit.line hbody.length_le ((List.pairwise_cons.1 hs).2.sublist hbody)
  exact ((ordered_condition unit _).append (hloop.append ha hinner) hsorted).mono hsub.subset

/-- The parts of a draft are in order. A statement that is not complete has its last line from a
unit in front. -/
theorem ordered_draft {front us : List SourceUnit} {pieces : List (List Char)} {line : Nat}
    (hs : Sorted (front ++ us)) (hp : pieces ≠ [] → ∃ unit ∈ front, unit.line = line)
    (topLevel : Bool) : Ordered (front ++ us) (draft topLevel line pieces us).parts := by
  induction hsize : us.length using Nat.strongRecOn
    generalizing front us pieces line topLevel with
  | _ size ih
  cases us with
  | nil =>
    rw [draft]
    split
    · exact ordered_nil _
    · next hn =>
      obtain ⟨unit, hu, rfl⟩ := hp (by simpa using hn)
      split <;> exact ordered_singleton (on_fault (List.mem_append_left [] hu) rfl)
  | cons unit rest =>
    rw [List.length_cons] at hsize
    have hcursor : Among (front ++ unit :: rest) ⟨rest, unit.line⟩ :=
      ⟨fun u hu => by simp [hu], unit, by simp, rfl⟩
    have hunit {problem : Problem} (h : problem.isStructural) :
        Ordered (front ++ unit :: rest) [.broken (fault problem unit.line)] :=
      ordered_singleton (on_fault (List.mem_append_right front List.mem_cons_self) h)
    have hsunit := (List.pairwise_append.1 hs).2.1
    have hback {parts : List Part} (h : Ordered (unit :: rest) parts) :
        Ordered (front ++ unit :: rest) parts := h.mono (List.subset_append_right _ _)
    have hinner {us : List SourceUnit} (hs : Sorted ([] ++ us)) (hl : us.length ≤ rest.length)
        (topLevel : Bool) (line : Nat) : Ordered ([] ++ us) (draft topLevel line [] us).parts :=
      ih us.length (by omega) hs (fun hn => absurd rfl hn) topLevel rfl
    have hafter {us : List SourceUnit} (h : us.Sublist rest) :=
      hinner ((List.pairwise_cons.1 hsunit).2.sublist h) h.length_le
    have hblocks : BlocksOrdered rest.length := fun body line hl hb => hinner hb hl false line
    rw [draft_cons]
    split
    · exact hunit rfl
    · split
      · next text _ =>
        split
        · exact hunit rfl
        · have hb := lands_readBranch hcursor "if" unit.line text
          split
          · next hr => exact ordered_singleton (hb.of_error hr)
          · next first left hr =>
            have hc := lands_readChain (hb.of_ok hr : Among _ left)
            split
            · next hch => exact ordered_singleton (hc.of_error hch)
            · next chain hch =>
              have hsub := (readChain_suffix hch).sublist.trans
                ((List.sublist_append_right _ _).trans (sublist_of_readBranch hr))
              exact hback (ordered_if hblocks hsunit hr hch (hafter hsub topLevel _) _)
      · next text _ _ =>
        split
        · exact hunit rfl
        · have hb := lands_readBranch hcursor "while" unit.line text
          split
          · next hr => exact ordered_singleton (hb.of_error hr)
          · next branch left hr =>
            have hsub := (List.sublist_append_right _ _).trans (sublist_of_readBranch hr)
            exact hback (ordered_while hblocks hsunit hr (hafter hsub topLevel left.line))
      · have hrest := hafter (List.Sublist.refl rest) topLevel unit.line
        split
        · dsimp only
          split
          · exact hback (hrest.mono (List.subset_cons_self unit rest))
          · exact hback ((ordered_statement unit _).append hrest hsunit)
        · have hwaiting : Ordered ([unit] ++ rest)
              (draft topLevel unit.line (pieces ++ [unit.text]) rest).parts :=
            ih rest.length (by omega) hsunit
              (fun _ => ⟨unit, List.mem_singleton_self unit, rfl⟩) topLevel rfl
          exact hback hwaiting

/-! ## Scripts -/

/-- The diagnostics are in the order of their lines. All of them have a line of the text, on which a
unit stands. -/
structure InLineOrder (text : String) (diagnostics : List Diagnostic) : Prop where
  sorted : diagnostics.Pairwise fun d e => ∀ m ∈ d.line, ∀ n ∈ e.line, m ≤ n
  lines : ∀ d ∈ diagnostics, ∃ line, d.line = some line ∧ 1 ≤ line ∧
    line ≤ lineCount text.toList ∧ ∃ unit ∈ units text.toList, unit.line = line

theorem ordered_ofScript (script : List Char) :
    Ordered (units script) (Draft.ofScript script).parts :=
  show Ordered ([] ++ units script) _ from
    ordered_draft (units_provenance script).2.1 (fun hn => absurd rfl hn) true

theorem assemble_inLineOrder (text : String) (vars : Variables) (autoAdd : Bool) :
    InLineOrder text (assemble text.toList vars autoAdd).diagnostics := by
  have hordered := ordered_ofScript text.toList
  obtain ⟨reports, hr, hd⟩ := (Draft.ofScript text.toList).exists_reports vars autoAdd
  change InLineOrder text ((Draft.ofScript text.toList).assemble autoAdd vars).diagnostics
  rw [hd]
  refine ⟨hordered.pairwise_flatten hr, fun d hm => ?_⟩
  obtain ⟨part, hp, hl⟩ := exists_part_of_mem_flatten hr d hm
  obtain ⟨unit, hu, hunit⟩ := (hordered.on part hp).exists_unit
  have hb := (units_provenance text.toList).2.2.1 unit hu
  exact ⟨unit.line, hl.trans hunit, hb.1, hb.2, unit, hu, rfl⟩

/-- What a parse reports, what harvesting the names reports, and what is left after loading. -/
theorem diagnostics_inLineOrder (text : String) (names : List String) :
    InLineOrder text (parse text names).diagnostics ∧ InLineOrder text (harvest text).2 ∧
      InLineOrder text (load text).diagnostics := by
  have hparse (names : List String) : InLineOrder text (parse text names).diagnostics :=
    assemble_inLineOrder text _ false
  have hharvest : InLineOrder text (harvest text).2 := assemble_inLineOrder text {} true
  refine ⟨hparse names, hharvest, ?_⟩
  rw [load]
  dsimp only
  split
  · exact hparse _
  · exact hharvest

end Script

end FormulaScript
