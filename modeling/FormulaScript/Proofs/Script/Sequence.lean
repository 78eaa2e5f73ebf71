import FormulaScript.Proofs.Program.Sequence
import FormulaScript.Proofs.Script.Numbering
import FormulaScript.Proofs.Script.Replacement
import FormulaScript.Proofs.Script.Reports

/-!
# Scripts one after another

A script that starts on the line after another one is read as on its own, on other lines. So what is
reported of the two is what is reported of each, and the program of the two is one program after the
other.
-/

namespace FormulaScript.Script

open Text

/-! ## Units -/

theorem flush_renumber (f : Nat → Nat) (line : Nat) (pending : List Char) :
    flush (f line) pending = renumberUnits f (flush line pending) := by
  unfold flush
  dsimp only
  split <;> rfl

/-- A text that starts later has its units on later lines. -/
theorem unitsFrom_renumber (k : Nat) (mode : Mode) (pending : List Char) (line : Nat)
    (text : List Char) :
    unitsFrom mode pending (line + k) text =
      renumberUnits (· + k) (unitsFrom mode pending line text) := by
  fun_induction unitsFrom mode pending line text with
  | case1 =>
    rw [unitsFrom]
    exact flush_renumber (· + k) _ _
  | case2 mode pending line rest ih =>
    rw [unitsFrom_newline, Nat.add_right_comm, ih, flush_renumber (· + k)]
    exact List.map_append.symm
  | case3 _ _ _ ih => exact (unitsFrom.eq_3 ..).trans ih
  | case4 _ _ _ _ hn hs ih => exact (unitsFrom.eq_4 _ _ _ _ hn hs).trans ih
  | case5 _ _ _ _ hn ih => exact (unitsFrom.eq_5 _ _ _ _ hn).trans ih
  | case6 _ _ _ _ hn ih => exact (unitsFrom.eq_6 _ _ _ _ hn).trans ih
  | case7 _ _ _ ih => exact (unitsFrom.eq_7 ..).trans ih
  | case8 _ _ _ ih => exact (unitsFrom.eq_8 ..).trans ih
  | case9 _ _ _ ih => exact (unitsFrom.eq_9 ..).trans ih
  | case10 _ _ _ ih => exact (unitsFrom.eq_10 ..).trans ih
  | case11 pending line c rest hn hq hb hl hh hc ih =>
    rw [unitsFrom.eq_11 _ _ _ _ hn hq hb hl hh, if_pos hc, ih, flush_renumber (· + k)]
    refine Eq.trans ?_ List.map_append.symm
    rfl
  | case12 pending line rest _ _ _ _ _ _ ih =>
    rw [unitsFrom_semicolon, ih, flush_renumber (· + k)]
    exact List.map_append.symm
  | case13 pending line c rest hn hq hb hl hh hc hs ih =>
    rw [unitsFrom.eq_11 _ _ _ _ hn hq hb hl hh, if_neg hc, if_neg hs, ih]

variable {names : List String} {vars : Variables}

/-! ## Drafts -/

/-- Where the units of a text begin, none of an `if` before it goes on. -/
theorem follows_of_not_else {us : List SourceUnit}
    (h : ∀ unit ∈ us.head?, ¬ "else".toList <+: unit.text ∧ unit.text ≠ closingBrace) :
    Follows us := by
  intro unit hu
  obtain ⟨he, hc⟩ := h unit hu
  refine ⟨hc, fun ht => he (ht ▸ List.prefix_rfl), ?_⟩
  rw [afterElseIf, if_neg (mt List.isPrefixOf_iff_prefix.1 he)]

/-- The number of lines of a text. -/
def lineCount (text : List Char) : Nat := text.count '\n' + 1

theorem units_renumber {script : List Char} (h : Mode.code.after script ≠ .blockComment)
    (rest : List Char) : units (script ++ '\n' :: rest) =
      units script ++ renumberUnits (· + lineCount script) (units rest) := by
  rw [units_append_newline h, Nat.add_assoc, ← lineCount, unitsFrom_renumber]
  rfl

/-- A script after another one is drafted on its own, unless an `if` at the end of the first goes
on. -/
theorem ofScript_append {script rest : List Char} (hm : Mode.code.after script ≠ .blockComment)
    (he : (Draft.ofScript script).Ends)
    (hf : AwaitsElse (units script) (Draft.ofScript script) → Follows (units rest)) :
    Draft.ofScript (script ++ '\n' :: rest) =
      Draft.ofScript script ++ (Draft.ofScript rest).renumber (· + lineCount script) := by
  have hfollows (ha : AwaitsElse (units script) (Draft.ofScript script)) :
      Follows (renumberUnits (· + lineCount script) (units rest)) := by
    rw [Follows, List.head?_map]
    intro unit hu
    obtain ⟨first, hfirst, rfl⟩ := Option.mem_map.1 hu
    exact hf ha first hfirst
  unfold Draft.ofScript at he ⊢
  rw [units_renumber hm, (drafted_of_ends he).draft_append hfollows true 1 (1 + lineCount script),
    draft_renumber (· + lineCount script)]

/-- A closing brace on the line after an `if` is a fault in place of the `if`. -/
theorem ofScript_brace {script rest : List Char} (hm : Mode.code.after script ≠ .blockComment)
    (he : (Draft.ofScript script).Ends)
    (ha : AwaitsElse (units script) (Draft.ofScript script)) {brace : SourceUnit}
    (hu : brace ∈ (units rest).head?) (hc : brace.text = closingBrace) :
    ∃ before condition n yes no,
      Draft.ofScript script = before ++ .branch condition n yes no .done ∧ before.Ends ∧
      Draft.ofScript (script ++ '\n' :: rest) =
        before ++ .broken (fault .unmatchedBrace (brace.line + lineCount script)) := by
  obtain ⟨more, hr⟩ : ∃ more, units rest = brace :: more := List.head?_eq_some_iff.1 hu
  have hbrace : (brace.renumber (· + lineCount script)).text = closingBrace := hc
  obtain ⟨before, condition, n, yes, no, hd, hends, hbefore⟩ :=
    (drafted_of_ends he).draft_brace ha hbrace (renumberUnits (· + lineCount script) more)
  refine ⟨before, condition, n, yes, no, hd, hends, ?_⟩
  rw [Draft.ofScript, units_renumber hm, hr]
  exact hbefore true 1

/-! ## Diagnostics -/

namespace Draft

/-- What is reported of a draft over a fixed list of variables. -/
abbrev diagnostics (vars : Variables) (draft : Draft) : List Diagnostic :=
  (draft.assemble false vars).diagnostics

theorem diagnostics_append {d : Draft} (h : d.Ends) (e : Draft) :
    (d ++ e).diagnostics vars = d.diagnostics vars ++ e.diagnostics vars := by
  induction d with
  | done => rfl
  | broken => exact h.elim
  | equation text line rest ih =>
    change (equation text line (rest ++ e)).diagnostics vars = _
    simp only [diagnostics, assemble, vars_parseEquation, ih h, List.append_assoc]
  | branch condition line yes no rest _ _ ih =>
    change (branch condition line yes no (rest ++ e)).diagnostics vars = _
    simp only [diagnostics, assemble, vars_parseTest, vars_assemble, ih h, List.append_assoc]
  | loop condition line body rest _ ih =>
    change (loop condition line body (rest ++ e)).diagnostics vars = _
    simp only [diagnostics, assemble, vars_parseTest, vars_assemble, ih h, List.append_assoc]

variable (f : Nat → Nat)

/-- What is reported of a text on a line is reported of it on any other line as well. -/
theorem map_atLine_renumber (text : List Char) (vars : Variables) (line : Nat) :
    (Expr.parse text vars false).diagnostics.map (·.atLine (f line)) =
      ((Expr.parse text vars false).diagnostics.map (·.atLine line)).map (·.renumber f) := by
  rw [List.map_map]
  refine List.map_congr_left fun d hd => ?_
  have hl := Expr.line_of_mem_parse hd
  simp [Diagnostic.atLine, Diagnostic.renumber, hl]

theorem parseEquation_renumber (text : List Char) (line : Nat) (vars : Variables) :
    (parseEquation text (f line) vars false).diagnostics =
      (parseEquation text line vars false).diagnostics.map (·.renumber f) := by
  unfold parseEquation
  dsimp only
  rw [map_atLine_renumber, List.isEmpty_map]
  split <;> rfl

theorem diagnostics_renumber (draft : Draft) :
    (draft.renumber f).diagnostics vars = (draft.diagnostics vars).map (·.renumber f) := by
  induction draft with
  | done | broken => rfl
  | equation text line rest ih =>
    simp only [renumber, diagnostics, assemble, vars_parseEquation, parseEquation_renumber, ih,
      List.map_append]
  | branch condition line yes no rest ihy ihn ihr =>
    have ht := map_atLine_renumber f (wrapped condition) vars line
    simp only [renumber, diagnostics, assemble, vars_parseTest, vars_assemble, ihy, ihn, ihr,
      List.map_append]
    simp only [parseTest, testText_eq, ht]
  | loop condition line body rest ihb ihr =>
    have ht := map_atLine_renumber f (wrapped condition) vars line
    simp only [renumber, diagnostics, assemble, vars_parseTest, vars_assemble, ihb, ihr,
      List.map_append]
    simp only [parseTest, testText_eq, ht]

/-! ## Programs -/

theorem Forms.append {d e : Draft} {p q : Program} (h : d.Forms names p) (h' : e.Forms names q) :
    (d ++ e).Forms names (p ++ q) := by
  induction h with
  | done => exact h'
  | equation he _ ih => exact .equation he ih
  | branch ht hy hn _ _ _ ih => exact .branch ht hy hn ih
  | loop ht hb _ _ ih => exact .loop ht hb ih

theorem Forms.renumber {d : Draft} {p : Program} (h : d.Forms names p) :
    (d.renumber f).Forms names (p.renumber f) := by
  induction h with
  | done => exact .done
  | equation he _ ih => exact .equation he ih
  | branch ht _ _ _ ihy ihn ihr => exact .branch ht ihy ihn ihr
  | loop ht _ _ ihb ihr => exact .loop ht ihb ihr

end Draft

/-! ## Scripts -/

theorem toList_append_newline (s t : String) :
    (s ++ "\n" ++ t).toList = s.toList ++ '\n' :: t.toList := by
  simp

/-- What is reported of a script is reported of it and before all else when another one follows,
which then is reported on as on its own. But when the script ends with an `if` and a closing brace
comes next, nothing of the `if` is reported, only the brace. -/
theorem diagnostics_kept (s t : String) (names : List String)
    (hm : Mode.code.after s.toList ≠ .blockComment) (he : (Draft.ofScript s.toList).Ends)
    (ht : ∀ unit ∈ (units t.toList).head?, ¬ "else".toList <+: unit.text) :
    let first := parse s names
    let second := parse t names
    let whole := parse (s ++ "\n" ++ t) names
    let awaits := AwaitsElse (units s.toList) (Draft.ofScript s.toList)
    ((awaits → ∀ unit ∈ (units t.toList).head?, unit.text ≠ closingBrace) →
      whole.diagnostics =
        first.diagnostics ++ second.diagnostics.map (·.renumber (· + lineCount s.toList))) ∧
    (awaits → ∀ unit ∈ (units t.toList).head?, unit.text = closingBrace →
      ∃ before condition line yes no,
        Draft.ofScript s.toList = before ++ .branch condition line yes no .done ∧
        first.diagnostics = before.diagnostics first.vars ++
          (Draft.branch condition line yes no .done).diagnostics first.vars ∧
        whole.diagnostics = before.diagnostics first.vars ++
          [fault .unmatchedBrace (unit.line + lineCount s.toList)]) := by
  intro first second whole awaits
  have hvars : first.vars = .ofNames names (some names.length) := Draft.vars_assemble _ _
  have hwhole : whole.diagnostics = (Draft.ofScript (s.toList ++ '\n' :: t.toList)).diagnostics
      (.ofNames names (some names.length)) := by
    rw [← toList_append_newline]
    rfl
  refine ⟨fun hb => ?_, fun ha unit hu hc => ?_⟩
  · rw [hwhole, ofScript_append hm he fun ha => follows_of_not_else fun unit hu =>
      ⟨ht unit hu, hb ha unit hu⟩, Draft.diagnostics_append he, Draft.diagnostics_renumber]
    rfl
  · obtain ⟨before, condition, n, yes, no, hd, hends, hbrace⟩ := ofScript_brace hm he ha hu hc
    refine ⟨before, condition, n, yes, no, hd, ?_, ?_⟩
    · rw [hvars, ← Draft.diagnostics_append hends, ← hd]
      rfl
    · rw [hwhole, hbrace, Draft.diagnostics_append hends, hvars]
      rfl

theorem diagnostics_kept_if :
    let s := "x = ;\nif (x) \x7b x = ; \x7d"
    let t := "y;"
    (parse s ["x"]).diagnostics.length = 4 ∧ Mode.code.after s.toList ≠ .blockComment ∧
      (Draft.ofScript s.toList).Ends ∧
      (∀ unit ∈ (units t.toList).head?, ¬ "else".toList <+: unit.text) ∧
      (parse (s ++ "\n" ++ t) ["x"]).diagnostics = (parse s ["x"]).diagnostics ++
        (parse t ["x"]).diagnostics.map (·.renumber (· + lineCount s.toList)) := by
  intro s t
  have hm : Mode.code.after s.toList ≠ .blockComment := by decide +kernel
  have he : (Draft.ofScript s.toList).Ends := by decide +kernel
  have ht : ∀ unit ∈ (units t.toList).head?, ¬ "else".toList <+: unit.text := by decide +kernel
  have hb : ∀ unit ∈ (units t.toList).head?, unit.text ≠ closingBrace := by decide +kernel
  exact ⟨by decide +kernel, hm, he, ht, (diagnostics_kept s t ["x"] hm he ht).1 fun _ => hb⟩

/-- What is wrong in an `if` is not reported if a closing brace comes next. -/
theorem diagnostics_lost :
    let s := "if (1) \x7b x = ; \x7d"
    let t := "\x7d"
    Mode.code.after s.toList ≠ .blockComment ∧ (Draft.ofScript s.toList).Ends ∧
      (∀ unit ∈ (units t.toList).head?, ¬ "else".toList <+: unit.text) ∧
      ¬ (parse s ["x"]).diagnostics <+: (parse (s ++ "\n" ++ t) ["x"]).diagnostics := by
  intro s t
  exact ⟨by decide +kernel, by decide +kernel, by decide +kernel, by decide +kernel⟩

/-- Of two scripts without faults the second can follow the first, on the next line. The program
of both is one after the other, and does what they do one after the other. -/
theorem parse_sequence (s t : String) (names : List String) (hs : (parse s names).isClean)
    (ht : (parse t names).isClean) (hm : Mode.code.after s.toList ≠ .blockComment)
    (he : ∀ unit ∈ (units t.toList).head?, ¬ "else".toList <+: unit.text) :
    let first := parse s names
    let second := parse t names
    let whole := parse (s ++ "\n" ++ t) names
    whole.isClean ∧
      whole.program = first.program ++ second.program.renumber (· + lineCount s.toList) ∧
      whole.vars = first.vars ∧ whole.vars = second.vars ∧
      (∀ settings, whole.program.run settings =
        (do first.program.run settings; second.program.run settings)) ∧
      ∀ settings given (vars : Variables) shared, vars.values.length = first.vars.values.length →
        let one := { first with vars }.evaluate settings given shared
        let two := { second with vars := one.vars }.evaluate settings one.given one.shared
        one.result = .ok () → two.result = .ok () →
          { whole with vars }.evaluate settings given shared = two := by
  intro first second whole
  have hfirst := forms_of_isClean hs
  have hsecond := forms_of_isClean ht
  rw [vars_of_isClean hs] at hfirst
  rw [vars_of_isClean ht] at hsecond
  have hb := head?_ne_closingBrace hsecond.whole.ends
  have hdraft := ofScript_append hm hfirst.whole.ends fun _ =>
    follows_of_not_else fun unit hu => ⟨he unit hu, hb unit hu⟩
  have hforms := hfirst.append (hsecond.renumber (· + lineCount s.toList))
  rw [← hdraft, ← toList_append_newline] at hforms
  have hwhole := parse_eq_of_forms hforms
  have hrun (settings : Settings) : whole.program.run settings =
      (do first.program.run settings; second.program.run settings) := by
    have hprogram : whole.program = _ := congrArg Script.program hwhole
    rw [hprogram, Program.run_append, Program.run_renumber]
  have hvars : whole.vars = .ofNames names (some names.length) := congrArg Script.vars hwhole
  refine ⟨?_, congrArg Script.program hwhole, hvars.trans (vars_of_isClean hs).symm,
    hvars.trans (vars_of_isClean ht).symm, hrun, ?_⟩
  · have hd : whole.diagnostics = [] := congrArg Script.diagnostics hwhole
    exact List.isEmpty_iff.2 hd
  · intro settings given vars shared hl
    rw [vars_of_isClean hs, Variables.length_values_ofNames] at hl
    have hk := hfirst.safe.keeps_run settings
    have hk' := hsecond.safe.keeps_run settings
    rw [← hl] at hk hk'
    unfold evaluate
    dsimp only
    rw [hrun]
    exact Evaluation.runOn_seq hk hk'

theorem parse_sequence_comment :
    let s := "x = 1; // one"
    let t := "y = x + 1;\nprint(y);"
    let first := parse s ["x", "y"]
    let second := parse t ["x", "y"]
    let whole := parse (s ++ "\n" ++ t) ["x", "y"]
    let shared : Shared := ⟨.ofSeed 1, ""⟩
    let one := first.evaluate {} (some [3.0]) shared
    let two := { second with vars := one.vars }.evaluate {} one.given one.shared
    first.isClean ∧ second.isClean ∧ Mode.code.after s.toList ≠ .blockComment ∧
      (∀ unit ∈ (units t.toList).head?, ¬ "else".toList <+: unit.text) ∧ whole.isClean ∧
      whole.program = first.program ++ second.program.renumber (· + lineCount s.toList) ∧
      whole.program.lines = [1, 2, 3] ∧ one.result = .ok () ∧ two.result = .ok () ∧
      whole.evaluate {} (some [3.0]) shared = two := by
  intro s t first second whole shared one two
  have hs : first.isClean := by decide +kernel
  have ht : second.isClean := by decide +kernel
  have hm : Mode.code.after s.toList ≠ .blockComment := by decide +kernel
  have he : ∀ unit ∈ (units t.toList).head?, ¬ "else".toList <+: unit.text := by decide +kernel
  have eq_ok {result : Except EvaluationError Unit} (h : result.isOk) : result = .ok () := by
    cases result with
    | ok => rfl
    | error => cases h
  have hone : one.result = .ok () := eq_ok (by decide +kernel)
  have htwo : two.result = .ok () := eq_ok (by decide +kernel)
  obtain ⟨hc, hp, hv, -, -, hrun⟩ := parse_sequence s t ["x", "y"] hs ht hm he
  have hvars : whole.evaluate {} (some [3.0]) shared =
      { whole with vars := first.vars }.evaluate {} (some [3.0]) shared :=
    congrArg (fun vars => { whole with vars }.evaluate {} (some [3.0]) shared) hv
  exact ⟨hs, ht, hm, he, hc, hp, by decide +kernel, hone, htwo,
    hvars.trans (hrun {} (some [3.0]) first.vars shared rfl hone htwo)⟩

end FormulaScript.Script
