import FormulaScript.Proofs.Script.Braces
import FormulaScript.Proofs.Script.Sequence

/-!
# Scripts in blocks

The units of a script are read one by one, while those of a block are first cut out by their braces
and then read. So a script that is read to its end can stand in a block exactly if its braces are
nested, which they are unless a text has taken one in.
-/

namespace FormulaScript.Script

open Text Token

variable {us : List SourceUnit} {pieces : List (List Char)} {d : Draft} {brace : SourceUnit}

/-! ## Blocks -/

theorem blocksAfter_renumber (f : Nat → Nat) (depth : Nat) (us : List SourceUnit) :
    blocksAfter depth (renumberUnits f us) = blocksAfter depth us := by
  induction us generalizing depth with
  | nil => rfl
  | cons unit us ih =>
    change blocksAfter depth (unit.renumber f :: renumberUnits f us) = _
    unfold blocksAfter
    simp only [SourceUnit.renumber, ih]

theorem nested_renumber {f : Nat → Nat} : Nested (renumberUnits f us) ↔ Nested us :=
  Eq.congr_left (blocksAfter_renumber f 0 us)

/-- A block that is read to its end is read alike on the top level and within another block. -/
theorem draft_level {topLevel : Bool} {line : Nat} (h : (draft topLevel line [] us).Ends)
    (topLevel' : Bool) (line' : Nat) : draft topLevel' line' [] us = draft topLevel line [] us := by
  have hf : Follows [] := nofun
  have hd := (drafted_of_ends h).draft_append (fun _ => hf) topLevel' line' line'
  rwa [List.append_nil, draft_nil, Draft.append_done] at hd

theorem Draft.not_ends_append_broken (d : Draft) (fault : Diagnostic) :
    ¬ (d ++ broken fault).Ends := by
  induction d with
  | done | broken => exact id
  | equation _ _ _ ih | branch _ _ _ _ _ _ _ ih | loop _ _ _ _ _ ih => exact ih

/-- No closing brace stops the reading of a block but the one of the block. -/
theorem Drafted.not_ends_brace (h : Drafted pieces us d) (hb : brace.text = closingBrace)
    (topLevel : Bool) (line : Nat) (more : List SourceUnit) :
    ¬ (draft topLevel line pieces (us ++ brace :: more)).Ends := by
  by_cases ha : AwaitsElse us d
  · obtain ⟨before, _, _, _, _, -, -, hd⟩ := h.draft_brace ha hb more
    rw [hd]
    exact before.not_ends_append_broken _
  · rw [h.draft_append (fun ha' => absurd ha' ha) topLevel line line, draft_cons, if_pos hb]
    exact d.not_ends_append_broken _

/-! ## The block of an `if` -/

/-- The units of a block in the braces of an `if` that is always taken. -/
def enclosedUnits (body : List SourceUnit) (last : Nat) : List SourceUnit :=
  ⟨1, "if (1)".toList⟩ :: ⟨1, openingBrace⟩ :: (body ++ [⟨last, closingBrace⟩])

/-- A script in the braces of an `if`, on lines of its own. -/
def inBlock (script : String) : String := "if (1) \x7b\n" ++ script ++ "\n\x7d"

theorem toList_inBlock (script : String) :
    (inBlock script).toList = "if (1) \x7b".toList ++ '\n' :: (script.toList ++ '\n' :: ['}']) := by
  simp [inBlock]

theorem units_inBlock {script : String} (hm : Mode.code.after script.toList ≠ .blockComment) :
    ∃ last, units (inBlock script).toList =
      enclosedUnits (renumberUnits (· + 1) (units script.toList)) last := by
  have hstart : Mode.code.after "if (1) \x7b".toList ≠ .blockComment := by decide
  refine ⟨1 + lineCount script.toList + 1, ?_⟩
  rw [toList_inBlock, units_renumber hstart, units_renumber hm, renumberUnits, List.map_append]
  rfl

variable (last : Nat)

theorem afterKeyword_enclosed :
    afterKeyword "if" (SourceUnit.text ⟨1, "if (1)".toList⟩) = some "(1)".toList := rfl

theorem readCondition_enclosed (us : List SourceUnit) :
    readCondition "if" "(1)".toList ⟨⟨1, openingBrace⟩ :: us, 1⟩ = .ok (['1'], ⟨us, 1⟩) := by
  have hb : Balanced ['1'] := fun _ => rfl
  exact readCondition_joined hb (by decide) "if" 1 1 us

theorem draft_enclosed (h : Nested us) :
    draft true 1 [] (enclosedUnits us last) =
      .branch ['1'] 1 (draft false 1 [] us) .done .done := by
  have hb := readBranch_eq (readCondition_enclosed _)
    ((enclosed_iff.2 h).readBlock_eq 1 last []) 1
  have hc : readChain ⟨[], last⟩ = .ok ⟨[], none, ⟨[], last⟩⟩ := by rw [readChain]
  have hd := draft_if afterKeyword_enclosed hb hc true 1
  rwa [draft_nil] at hd

/-- A brace of the units that closes no block of theirs would close the block of the `if`. -/
theorem nested_of_ends (h : (draft true 1 [] us).Ends)
    (hw : (draft true 1 [] (enclosedUnits us last)).Whole fun _ => True) : Nested us := by
  obtain ⟨first, left, chain, hb, hc⟩ := exists_of_whole_if afterKeyword_enclosed hw
  rw [enclosedUnits, draft_if afterKeyword_enclosed hb hc] at hw
  obtain ⟨opened, hcondition, hblock, -⟩ := exists_of_readBranch hb
  rw [readCondition_enclosed] at hcondition
  obtain ⟨-, rfl⟩ := Prod.mk.inj (Except.ok.inj hcondition)
  obtain ⟨brace, ht, hu⟩ := readBlock_eq_append hblock
  rcases List.eq_nil_or_concat left.units with hl | ⟨more, unit, hl⟩
  · rw [hl] at hu
    rw [(List.append_inj' hu rfl).1]
    exact blocksAfter_of_readBlock hblock
  · rw [hl, List.concat_eq_append, ← List.cons_append, ← List.append_assoc] at hu
    rw [(List.append_inj' hu rfl).1] at h
    exact absurd h ((drafted_of_ends hw.2.1.ends).not_ends_brace ht true 1 more)

/-! ## Braces of a script -/

/-- The braces of a script are nested if its strings are strings for the tokens too. -/
theorem nested_of_forms {names : List String} {program : Program} {script : List Char}
    (h : (Draft.ofScript script).Forms names program) (hclosing : Closing (units script))
    (ht : ∀ parsed ∈ (Draft.ofScript script).texts, OnlyStringsQuote parsed ∧ '\x00' ∉ parsed) :
    Nested (units script) := by
  have hconditions : ∀ condition ∈ (Draft.ofScript script).conditions, ¬ BareBrace condition := by
    intro condition hc
    have hm := Draft.mem_texts_iff.2 (.inr ⟨condition, hc, rfl⟩)
    obtain ⟨e, he⟩ := h.exists_forms _ hm
    obtain ⟨ho, hn⟩ := ht _ hm
    exact not_bareBrace_test he hn ho
  have hstatements : ∀ text ∈ (Draft.ofScript script).statements, ¬ BareBrace text := by
    intro text hs
    have hm := Draft.mem_texts_iff.2 (.inl hs)
    obtain ⟨e, he⟩ := h.exists_forms text hm
    obtain ⟨ho, hn⟩ := ht text hm
    exact not_bareBrace he hn ho (List.nil_append (lexemes text)).symm
  have hwhole := h.whole
  exact enclosed_iff.1 ((drafted_of_ends hwhole.ends).enclosed hclosing (List.forall_mem_nil _)
    (Draft.whole_iff.2 ⟨hwhole, hconditions⟩) hstatements).1

/-! ## Scripts -/

theorem exists_forms_one (names : List String) :
    ∃ test, Expr.Forms names (wrapped ['1']) test := by
  have hd : (Expr.parse (wrapped ['1']) {} false).diagnostics.isEmpty := by decide +kernel
  obtain ⟨test, -, hf, hg⟩ := Expr.exists_forms (List.isEmpty_iff.1 hd)
  rw [hg.fixed rfl] at hf
  exact ⟨test, hf.mono List.nil_prefix⟩

/-- A script without faults can stand in the block of an `if` exactly if its braces are nested. It
is the whole of the block then. Its braces are nested if each unit closes its strings, if only
strings have quotes for the tokens too, and if no text is cut short for them. -/
theorem parse_in_block (s : String) (names : List String) (h : (parse s names).isClean)
    (hm : Mode.code.after s.toList ≠ .blockComment) :
    let inner := parse s names
    let outer := parse (inBlock s) names
    (outer.isClean ↔ Nested (units s.toList)) ∧
      (outer.isClean → outer.vars = inner.vars ∧
        ∃ test, Expr.Forms outer.vars.names (wrapped ['1']) test ∧
          outer.program = .branch test (inner.program.renumber (· + 1)) .nil 1 .nil) ∧
      (Closing (units s.toList) →
        (∀ parsed ∈ (Draft.ofScript s.toList).texts, OnlyStringsQuote parsed ∧ '\x00' ∉ parsed) →
          outer.isClean) := by
  intro inner outer
  let vars := Variables.ofNames names (some names.length)
  have hinner : inner.vars = vars := vars_of_isClean h
  have hforms : (Draft.ofScript s.toList).Forms vars.names inner.program :=
    hinner ▸ forms_of_isClean h
  obtain ⟨last, hu⟩ := units_inBlock hm
  have hdraft : draft true 1 [] (renumberUnits (· + 1) (units s.toList)) =
      (Draft.ofScript s.toList).renumber (· + 1) :=
    (draft_line true 1 2 _).trans (draft_renumber (· + 1) true 1 [] _)
  have hshifted := hforms.renumber (· + 1)
  have hends : (draft true 1 [] (renumberUnits (· + 1) (units s.toList))).Ends :=
    hdraft ▸ hshifted.whole.ends
  have hparse (hn : Nested (units s.toList)) : ∃ test,
      Expr.Forms vars.names (wrapped ['1']) test ∧
        outer = ⟨.branch test (inner.program.renumber (· + 1)) .nil 1 .nil, vars, []⟩ := by
    obtain ⟨test, ht⟩ := exists_forms_one vars.names
    refine ⟨test, ht, parse_eq_of_forms ?_⟩
    rw [Draft.ofScript, hu, draft_enclosed last (nested_renumber.2 hn), draft_level hends false 1,
      hdraft]
    exact .branch ht hshifted .done .done
  have hclean : outer.isClean ↔ Nested (units s.toList) := by
    refine ⟨fun hc => ?_, fun hn => ?_⟩
    · have hw := (forms_of_isClean hc).whole
      rw [Draft.ofScript, hu] at hw
      exact nested_renumber.1 (nested_of_ends last hends hw)
    · obtain ⟨test, -, ho⟩ := hparse hn
      rw [ho]
      rfl
  refine ⟨hclean, fun hc => ?_, fun hclosing ht => hclean.2 (nested_of_forms hforms hclosing ht)⟩
  obtain ⟨test, ht, ho⟩ := hparse (hclean.1 hc)
  rw [ho]
  exact ⟨hinner.symm, test, ht, rfl⟩

theorem parse_in_block_loop :
    let s := "while (x) \x7b print(\"\x7b\", x);\nx = x - 1; \x7d // \x7d"
    let inner := parse s ["x"]
    let outer := parse (inBlock s) ["x"]
    inner.isClean ∧ Mode.code.after s.toList ≠ .blockComment ∧ Closing (units s.toList) ∧
      Nested (units s.toList) ∧ outer.isClean ∧ outer.vars = inner.vars ∧
      ∃ test, outer.program = .branch test (inner.program.renumber (· + 1)) .nil 1 .nil := by
  intro s inner outer
  have h : inner.isClean := by decide +kernel
  have hm : Mode.code.after s.toList ≠ .blockComment := by decide +kernel
  have hall : (units s.toList).all (¬ EndsInString ·.text) ∧
      (Draft.ofScript s.toList).texts.all fun parsed =>
        OnlyStringsQuote parsed ∧ '\x00' ∉ parsed := by
    decide +kernel
  have hclosing : Closing (units s.toList) := fun unit hu =>
    of_decide_eq_true (List.all_eq_true.1 hall.1 unit hu)
  have ht : ∀ parsed ∈ (Draft.ofScript s.toList).texts,
      OnlyStringsQuote parsed ∧ '\x00' ∉ parsed := fun parsed hp =>
    of_decide_eq_true (List.all_eq_true.1 hall.2 parsed hp)
  obtain ⟨hnested, hprogram, hclean⟩ := parse_in_block s ["x"] h hm
  have hc : outer.isClean := hclean hclosing ht
  obtain ⟨hv, test, -, hp⟩ := hprogram hc
  exact ⟨h, hm, hclosing, hnested.1 hc, hc, hv, test, hp⟩

/-- A brace in a string that goes over the end of its line is one for the block. -/
theorem brace_in_broken_string :
    let s := "print(\"a\n\x7b b\");"
    (parse s []).isClean ∧ Mode.code.after s.toList ≠ .blockComment ∧
      ¬ (parse (inBlock s) []).isClean := by
  decide +kernel

end FormulaScript.Script
