import FormulaScript.Proofs.Script.Cursors

/-!
# Units after a block

A block that is read to its end is read in the same way when more units follow it, and these are
read as if they came first. The one exception is a closing brace right after the last block of an
`if`: the `if` is not complete before the next unit has been seen, and the fault takes its place.
-/

namespace FormulaScript.Script

open Text

/-! ## Drafts -/

namespace Draft

/-- One draft after another. -/
def append : Draft → Draft → Draft
  | done, e => e
  | broken fault, _ => broken fault
  | equation text line rest, e => equation text line (rest.append e)
  | branch condition line yes no rest, e => branch condition line yes no (rest.append e)
  | loop condition line body rest, e => loop condition line body (rest.append e)

instance : Append Draft := ⟨append⟩

/-- No fault stops the reading of the block. The blocks in it may be stopped. -/
def Ends : Draft → Prop
  | done => True
  | broken _ => False
  | equation _ _ rest | branch _ _ _ _ rest | loop _ _ _ rest => rest.Ends

instance decidableEnds : (draft : Draft) → Decidable draft.Ends
  | done => .isTrue trivial
  | broken _ => .isFalse id
  | equation _ _ rest | branch _ _ _ _ rest | loop _ _ _ rest => decidableEnds rest

/-- The last statement is an `if`. -/
def EndsInBranch : Draft → Prop
  | done | broken _ => False
  | equation _ _ rest | loop _ _ _ rest => rest.EndsInBranch
  | branch _ _ _ _ rest => rest = done ∨ rest.EndsInBranch

theorem append_done (draft : Draft) : draft ++ done = draft := by
  induction draft with
  | done | broken => rfl
  | equation text line rest ih => exact congrArg (equation text line) ih
  | branch condition line yes no rest _ _ ih => exact congrArg (branch condition line yes no) ih
  | loop condition line body rest _ ih => exact congrArg (loop condition line body) ih

theorem Whole.ends {p : List Char → Prop} {draft : Draft} (h : draft.Whole p) : draft.Ends := by
  induction draft with
  | done => trivial
  | broken => exact h
  | equation text line rest ih => exact ih h
  | branch condition line yes no rest _ _ ih => exact ih h.2.2.2
  | loop condition line body rest _ ih => exact ih h.2.2

end Draft

/-! ## Blocks that are read to their ends -/

/-- How the units of a block are read to their end, after the pieces of a statement that is not
complete. -/
inductive Drafted : List (List Char) → List SourceUnit → Draft → Prop
  | done : Drafted [] [] .done
  | branch (unit : SourceUnit) (rest : List SourceUnit) (chain : Chain) :
      afterKeyword "if" unit.text = some text →
      readBranch "if" unit.line text ⟨rest, unit.line⟩ = .ok (first, left) →
      readChain left = .ok chain → Drafted [] chain.cursor.units later →
      Drafted [] (unit :: rest) (.branch first.condition unit.line
        (draft false unit.line [] first.body)
        (chain.draft ((chain.branches.getLast?.map Branch.line).getD unit.line)) later)
  | loop (unit : SourceUnit) (rest : List SourceUnit) :
      afterKeyword "if" unit.text = none → afterKeyword "while" unit.text = some text →
      readBranch "while" unit.line text ⟨rest, unit.line⟩ = .ok (body, left) →
      Drafted [] left.units later →
      Drafted [] (unit :: rest)
        (.loop body.condition unit.line (draft false unit.line [] body.body) later)
  | empty (unit : SourceUnit) (rest : List SourceUnit) :
      afterKeyword "if" unit.text = none → afterKeyword "while" unit.text = none →
      unit.text.getLast? = some ';' → joinPieces (pieces ++ [unit.text.dropLast]) = [] →
      Drafted [] rest later → Drafted pieces (unit :: rest) later
  | equation (unit : SourceUnit) (rest : List SourceUnit) :
      afterKeyword "if" unit.text = none → afterKeyword "while" unit.text = none →
      unit.text.getLast? = some ';' → joinPieces (pieces ++ [unit.text.dropLast]) ≠ [] →
      Drafted [] rest later → Drafted pieces (unit :: rest)
        (.equation (joinPieces (pieces ++ [unit.text.dropLast])) unit.line later)
  | piece (unit : SourceUnit) (rest : List SourceUnit) :
      unit.text ≠ closingBrace → afterKeyword "if" unit.text = none →
      afterKeyword "while" unit.text = none → unit.text.getLast? ≠ some ';' →
      Drafted (pieces ++ [unit.text]) rest later → Drafted pieces (unit :: rest) later

variable {topLevel : Bool} {line : Nat} {pieces : List (List Char)} {unit : SourceUnit}
  {us more : List SourceUnit} {d : Draft}

theorem drafted_of_ends (h : (draft topLevel line pieces us).Ends) :
    Drafted pieces us (draft topLevel line pieces us) := by
  induction hsize : us.length using Nat.strongRecOn generalizing us line pieces with | _ size ih
  cases us with
  | nil =>
    rw [draft] at h
    split at h
    · next he =>
      cases List.isEmpty_iff.1 he
      rw [draft_nil]
      exact .done
    · split at h <;> exact h.elim
  | cons unit rest =>
    rw [List.length_cons] at hsize
    have hc : unit.text ≠ closingBrace := fun hc => by simp [draft_cons, hc, Draft.Ends] at h
    cases hi : afterKeyword "if" unit.text with
    | some text =>
      cases pieces with
      | cons => simp [draft_cons, hc, hi, Draft.Ends] at h
      | nil =>
        simp only [draft_cons, hi, if_neg hc, List.isEmpty_nil, Bool.not_true, Bool.false_eq_true,
          if_false] at h ⊢
        split at h
        · exact h.elim
        · next first left hb =>
          split at h
          · exact h.elim
          · next chain hch =>
            have hlength := readBranch_length hb
            have hlength' := (readChain_length hch).2.2
            exact .branch unit rest chain hi hb hch (ih _ (by dsimp only at hlength; omega) h rfl)
    | none =>
      cases hw : afterKeyword "while" unit.text with
      | some text =>
        cases pieces with
        | cons => simp [draft_cons, hc, hi, hw, Draft.Ends] at h
        | nil =>
          simp only [draft_cons, hi, hw, if_neg hc, List.isEmpty_nil, Bool.not_true,
            Bool.false_eq_true, if_false] at h ⊢
          split at h
          · exact h.elim
          · next body left hb =>
            have hlength := readBranch_length hb
            exact .loop unit rest hi hw hb (ih _ (by dsimp only at hlength; omega) h rfl)
      | none =>
        simp only [draft_cons, hi, hw, if_neg hc] at h ⊢
        split at h
        · next hl =>
          rw [if_pos hl]
          split at h
          · next he =>
            rw [if_pos he]
            exact .empty unit rest hi hw hl (List.isEmpty_iff.1 he) (ih _ (by omega) h rfl)
          · next he =>
            rw [if_neg he]
            exact .equation unit rest hi hw hl (mt List.isEmpty_iff.2 he) (ih _ (by omega) h rfl)
        · next hl =>
          rw [if_neg hl]
          exact .piece unit rest hc hi hw hl (ih _ (by omega) h rfl)

/-- No block that is read to its end begins with a closing brace. -/
theorem head?_ne_closingBrace (h : (draft topLevel line pieces us).Ends) :
    ∀ unit ∈ us.head?, unit.text ≠ closingBrace := by
  cases us with
  | nil => nofun
  | cons unit rest =>
    rintro _ ⟨⟩ hc
    rw [draft_cons, if_pos hc] at h
    exact h

/-! ## The last unit of a block -/

/-- The unit closes a block or ends a statement. -/
def SourceUnit.Completes (unit : SourceUnit) : Prop :=
  unit.text = closingBrace ∨ unit.text.getLast? = some ';'

theorem Closes.completes (h : Closes us vs) (hv : ∀ unit ∈ vs.getLast?, unit.Completes) :
    ∀ unit ∈ us.getLast?, unit.Completes := by
  obtain ⟨front, unit, rfl, hc⟩ := h
  rw [List.getLast?_append_cons]
  cases vs with
  | nil =>
    rintro _ ⟨⟩
    exact .inl hc
  | cons next vs => rwa [List.getLast?_cons_cons]

theorem completes_cons (hu : us = [] → unit.Completes)
    (h : ∀ unit ∈ us.getLast?, unit.Completes) :
    ∀ last ∈ (unit :: us).getLast?, last.Completes := by
  cases us with
  | nil =>
    rintro _ ⟨⟩
    exact hu rfl
  | cons next us => rwa [List.getLast?_cons_cons]

theorem Closes.exists_brace (h : Closes us []) :
    ∃ unit ∈ us.getLast?, unit.text = closingBrace := by
  obtain ⟨front, unit, rfl, hc⟩ := h
  exact ⟨unit, List.getLast?_concat, hc⟩

/-- A chain ends with the brace of its last block. -/
theorem closes_chain {cursor left : UnitCursor} {chain : Chain}
    (hb : readBranch keyword line text cursor = .ok (first, left))
    (hc : readChain left = .ok chain) : Closes cursor.units chain.cursor.units := by
  have hbranch := closes_readBranch hb
  rcases closes_readChain hc with heq | hcl
  · exact heq ▸ hbranch
  · exact hcl.of_suffix hbranch.suffix

theorem Drafted.pieces_eq_nil (h : Drafted pieces [] d) : pieces = [] := by
  cases h
  rfl

/-- The last unit of a block that is read to its end closes an inner block or ends a statement. -/
theorem Drafted.completes (h : Drafted pieces us d) : ∀ unit ∈ us.getLast?, unit.Completes := by
  induction h with
  | done => nofun
  | branch unit rest chain _ hb hch _ ih =>
    exact ((closes_chain hb hch).of_suffix (List.suffix_cons unit rest)).completes ih
  | loop unit rest _ _ hb _ ih =>
    exact ((closes_readBranch hb).of_suffix (List.suffix_cons unit rest)).completes ih
  | empty _ _ _ _ hl _ _ ih | equation _ _ _ _ hl _ _ ih =>
    exact completes_cons (fun _ => .inr hl) ih
  | piece unit rest _ _ _ _ h ih =>
    refine completes_cons ?_ ih
    rintro rfl
    exact absurd h.pieces_eq_nil (List.concat_ne_nil _ _)

/-- Only empty statements form no statements, so the last unit of a block without any is one. -/
theorem Drafted.getLast?_of_done (h : Drafted pieces us .done) :
    ∀ unit ∈ us.getLast?, unit.text.getLast? = some ';' := by
  generalize hd : Draft.done = d at h
  induction h with
  | done => nofun
  | branch | loop | equation => cases hd
  | empty unit rest _ _ hl _ _ ih =>
    cases rest with
    | nil =>
      rintro _ ⟨⟩
      exact hl
    | cons next rest => exact ih hd
  | piece unit rest _ _ _ _ h ih =>
    cases rest with
    | nil => exact absurd h.pieces_eq_nil (List.concat_ne_nil _ _)
    | cons next rest => exact ih hd

/-! ## Blocks that end with an `if` -/

/-- The last statement is an `if` and the last unit is the brace that closes its last block, so that
an `else` could follow. -/
structure AwaitsElse (us : List SourceUnit) (d : Draft) : Prop where
  branch : d.EndsInBranch
  brace : ∃ unit ∈ us.getLast?, unit.text = closingBrace

theorem getLast?_of_suffix (h : vs <:+ us) (hn : vs ≠ []) : us.getLast? = vs.getLast? := by
  obtain ⟨front, rfl⟩ := h
  exact List.getLast?_append_of_ne_nil front hn

theorem AwaitsElse.of_suffix (h : AwaitsElse vs d) (hs : vs <:+ us) (hb : e.EndsInBranch) :
    AwaitsElse us e := by
  obtain ⟨unit, hu, hc⟩ := h.brace
  have hn : vs ≠ [] := List.ne_nil_of_mem (List.mem_of_getLast? hu)
  exact ⟨hb, unit, getLast?_of_suffix hs hn ▸ hu, hc⟩

theorem AwaitsElse.suffix (h : AwaitsElse us e) (hs : vs <:+ us) (hn : vs ≠ [])
    (hb : d.EndsInBranch) : AwaitsElse vs d := ⟨hb, getLast?_of_suffix hs hn ▸ h.brace⟩

theorem Drafted.ne_nil (h : Drafted pieces us d) (hb : d.EndsInBranch) : us ≠ [] := by
  rintro rfl
  cases h
  exact hb

/-! ## More units -/

theorem draft_line (topLevel : Bool) (line line' : Nat) (us : List SourceUnit) :
    draft topLevel line [] us = draft topLevel line' [] us := by
  cases us with
  | nil => rw [draft_nil, draft_nil]
  | cons unit rest => rw [draft_cons, draft_cons]

theorem draft_if {rest : List SourceUnit} {chain : Chain}
    (hi : afterKeyword "if" unit.text = some text)
    (hb : readBranch "if" unit.line text ⟨rest, unit.line⟩ = .ok (first, left))
    (hch : readChain left = .ok chain) (topLevel : Bool) (line : Nat) :
    draft topLevel line [] (unit :: rest) =
      .branch first.condition unit.line (draft false unit.line [] first.body)
        (chain.draft ((chain.branches.getLast?.map Branch.line).getD unit.line))
        (draft topLevel chain.cursor.line [] chain.cursor.units) := by
  have hc := ne_closingBrace (by decide) hi
  simp only [draft_cons, hi, hb, hch, if_neg hc, List.isEmpty_nil, Bool.not_true,
    Bool.false_eq_true, if_false]

theorem draft_if_broken {rest : List SourceUnit}
    (hi : afterKeyword "if" unit.text = some text)
    (hb : readBranch "if" unit.line text ⟨rest, unit.line⟩ = .ok (first, left))
    (hch : readChain left = .error problem) (topLevel : Bool) (line : Nat) :
    draft topLevel line [] (unit :: rest) = .broken problem := by
  have hc := ne_closingBrace (by decide) hi
  simp only [draft_cons, hi, hb, hch, if_neg hc, List.isEmpty_nil, Bool.not_true,
    Bool.false_eq_true, if_false]

/-- A semicolon ends a statement, which counts if there is a text in front of it. -/
theorem draft_ended (hi : afterKeyword "if" unit.text = none)
    (hw : afterKeyword "while" unit.text = none) (hl : unit.text.getLast? = some ';')
    (topLevel : Bool) (line : Nat) (pieces : List (List Char)) (rest : List SourceUnit) :
    draft topLevel line pieces (unit :: rest) =
      if joinPieces (pieces ++ [unit.text.dropLast]) = [] then draft topLevel unit.line [] rest
      else .equation (joinPieces (pieces ++ [unit.text.dropLast])) unit.line
        (draft topLevel unit.line [] rest) := by
  have hc : unit.text ≠ closingBrace := fun hc => by
    rw [hc] at hl
    cases hl
  simp only [draft_cons, hi, hw, if_neg hc, if_pos hl, List.isEmpty_iff]

/-- What follows a block that is read to its end is read as if it came first. -/
theorem Drafted.draft_append (h : Drafted pieces us d) (hf : AwaitsElse us d → Follows more)
    (topLevel : Bool) (line line' : Nat) :
    draft topLevel line pieces (us ++ more) = d ++ draft topLevel line' [] more := by
  induction h generalizing line with
  | done => exact draft_line topLevel line line' more
  | branch unit rest chain hi hb hch h ih =>
    have hcloses := (closes_chain hb hch).of_suffix (List.suffix_cons unit rest)
    have hch' := readChain_followedBy hch more fun hu => by
      rw [hu] at h hcloses
      cases h
      exact hf ⟨.inl rfl, hcloses.exists_brace⟩
    rw [List.cons_append, draft_if hi (readBranch_followedBy hb more) hch']
    exact congrArg (Draft.branch _ _ _ (Chain.draft _ _))
      (ih (fun ha => hf (ha.of_suffix hcloses.suffix (.inr ha.branch))) _)
  | loop unit rest hi hw hb h ih =>
    have hs := (closes_readBranch hb).suffix.trans (List.suffix_cons unit rest)
    rw [List.cons_append, draft_loop (ne_closingBrace (by decide) hw) hi hw
      (readBranch_followedBy hb more)]
    exact congrArg (Draft.loop _ _ _) (ih (fun ha => hf (ha.of_suffix hs ha.branch)) _)
  | empty unit rest hi hw hl hj h ih =>
    rw [List.cons_append, draft_ended hi hw hl, if_pos hj]
    exact ih (fun ha => hf (ha.of_suffix (List.suffix_cons unit rest) ha.branch)) _
  | equation unit rest hi hw hl hj h ih =>
    rw [List.cons_append, draft_ended hi hw hl, if_neg hj]
    exact congrArg (Draft.equation _ _)
      (ih (fun ha => hf (ha.of_suffix (List.suffix_cons unit rest) ha.branch)) _)
  | piece unit rest hc hi hw hl h ih =>
    rw [List.cons_append, draft_unfinished hc hi hw hl]
    exact ih (fun ha => hf (ha.of_suffix (List.suffix_cons unit rest) ha.branch)) _

/-- A closing brace right after the last block of an `if` is a fault in place of the `if`. -/
theorem Drafted.draft_brace {brace : SourceUnit} (h : Drafted pieces us d) (ha : AwaitsElse us d)
    (hb : brace.text = closingBrace) (more : List SourceUnit) :
    ∃ before condition n yes no, d = before ++ .branch condition n yes no .done ∧ before.Ends ∧
      ∀ topLevel line, draft topLevel line pieces (us ++ brace :: more) =
        before ++ .broken (fault .unmatchedBrace brace.line) := by
  induction h with
  | done => exact ha.branch.elim
  | branch unit rest chain hi hbr hch h ih =>
    have hbr' := readBranch_followedBy hbr (brace :: more)
    have hs := (closes_chain hbr hch).suffix.trans (List.suffix_cons unit rest)
    by_cases hu : chain.cursor.units = []
    · have hch' := readChain_brace hch hu hb more
      rw [hu] at h
      cases h
      refine ⟨.done, _, _, _, _, rfl, trivial, fun topLevel line => ?_⟩
      exact draft_if_broken hi hbr' hch' topLevel line
    · have hch' := readChain_followedBy hch (brace :: more) fun he => absurd he hu
      have hafter := ha.branch.resolve_left fun hd => by
        -- units that form no statements do not end with a brace
        obtain ⟨last, hl, ht⟩ := ha.brace
        rw [getLast?_of_suffix hs hu] at hl
        have hsemicolon := (hd ▸ h).getLast?_of_done last hl
        rw [ht] at hsemicolon
        cases hsemicolon
      obtain ⟨before, condition, n, yes, no, rfl, he, hbefore⟩ := ih (ha.suffix hs hu hafter)
      refine ⟨.branch _ _ _ _ before, condition, n, yes, no, rfl, he, fun topLevel line => ?_⟩
      rw [List.cons_append, draft_if hi hbr' hch']
      exact congrArg (Draft.branch _ _ _ (Chain.draft _ _)) (hbefore topLevel _)
  | loop unit rest hi hw hbr h ih =>
    have hs := (closes_readBranch hbr).suffix.trans (List.suffix_cons unit rest)
    obtain ⟨before, condition, n, yes, no, rfl, he, hbefore⟩ :=
      ih (ha.suffix hs (h.ne_nil ha.branch) ha.branch)
    refine ⟨.loop _ _ _ before, condition, n, yes, no, rfl, he, fun topLevel line => ?_⟩
    rw [List.cons_append, draft_loop (ne_closingBrace (by decide) hw) hi hw
      (readBranch_followedBy hbr (brace :: more))]
    exact congrArg (Draft.loop _ _ _) (hbefore topLevel _)
  | empty unit rest hi hw hl hj h ih =>
    obtain ⟨before, condition, n, yes, no, rfl, he, hbefore⟩ :=
      ih (ha.suffix (List.suffix_cons unit rest) (h.ne_nil ha.branch) ha.branch)
    refine ⟨before, condition, n, yes, no, rfl, he, fun topLevel line => ?_⟩
    rw [List.cons_append, draft_ended hi hw hl, if_pos hj]
    exact hbefore topLevel _
  | equation unit rest hi hw hl hj h ih =>
    obtain ⟨before, condition, n, yes, no, rfl, he, hbefore⟩ :=
      ih (ha.suffix (List.suffix_cons unit rest) (h.ne_nil ha.branch) ha.branch)
    refine ⟨.equation _ _ before, condition, n, yes, no, rfl, he, fun topLevel line => ?_⟩
    rw [List.cons_append, draft_ended hi hw hl, if_neg hj]
    exact congrArg (Draft.equation _ _) (hbefore topLevel _)
  | piece unit rest hc hi hw hl h ih =>
    obtain ⟨before, condition, n, yes, no, rfl, he, hbefore⟩ :=
      ih (ha.suffix (List.suffix_cons unit rest) (h.ne_nil ha.branch) ha.branch)
    refine ⟨before, condition, n, yes, no, rfl, he, fun topLevel line => ?_⟩
    rw [List.cons_append, draft_unfinished hc hi hw hl]
    exact hbefore topLevel _

end FormulaScript.Script
