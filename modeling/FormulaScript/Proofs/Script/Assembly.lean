import FormulaScript.Proofs.Evaluation
import FormulaScript.Proofs.Expr.Recognition
import FormulaScript.Script.Assembly

/-!
# Programs of drafts

`Draft.Forms names draft program` says that every text of the draft forms the expression that stands
in its place in the program. Assembling a draft finds the program if there is one, and otherwise
reports something.
-/

namespace FormulaScript.Script

/-- The text that a condition is parsed as, a conditional that yields 1 if it holds and 0
otherwise. -/
def wrapped (condition : List Char) : List Char :=
  "if(".toList ++ condition ++ ", 1., 0.)".toList

@[simp] theorem testText_eq (condition : List Char) : testText condition = wrapped condition := rfl

/-- The texts of the draft form the expressions of the program, statement by statement. -/
inductive Draft.Forms (names : List String) : Draft → Program → Prop
  | done : Forms names .done .nil
  | equation : Expr.Forms names text e → Forms names rest after →
      Forms names (.equation text line rest) (.equation e line after)
  | branch : Expr.Forms names (wrapped condition) test → Forms names yes yes' →
      Forms names no no' → Forms names rest after →
      Forms names (.branch condition line yes no rest) (.branch test yes' no' line after)
  | loop : Expr.Forms names (wrapped condition) test → Forms names body body' →
      Forms names rest after →
      Forms names (.loop condition line body rest) (.loop test body' line after)

namespace Draft

variable {names names' : List String} {draft : Draft} {program : Program} {vars : Variables}

theorem Forms.mono (h : draft.Forms names program) (hn : names <+: names') :
    draft.Forms names' program := by
  induction h with
  | done => exact .done
  | equation he _ ih => exact .equation (he.mono hn) ih
  | branch ht _ _ _ ihy ihn ihr => exact .branch (ht.mono hn) ihy ihn ihr
  | loop ht _ _ ihb ihr => exact .loop (ht.mono hn) ihb ihr

theorem Forms.safe (h : draft.Forms names program) : program.Safe names.length := by
  induction h with
  | done => trivial
  | equation he _ ih => exact ⟨he.derives.safe, ih⟩
  | branch ht _ _ _ ihy ihn ihr => exact ⟨ht.derives.safe, ihy, ihn, ihr⟩
  | loop ht _ _ ihb ihr => exact ⟨ht.derives.safe, ihb, ihr⟩

/-! ## Completeness -/

theorem parseEquation_eq (h : Expr.Forms vars.names text e) (line : Nat) (autoAdd : Bool) :
    parseEquation text line vars autoAdd = ⟨some e, [], vars⟩ := by
  simp [parseEquation, h.parse_eq]

theorem parseTest_eq (h : Expr.Forms vars.names (wrapped condition) e) (line : Nat)
    (autoAdd : Bool) : parseTest condition line vars autoAdd = ⟨some e, [], vars⟩ := by
  simp [parseTest, h.parse_eq]

theorem Forms.assemble_eq (h : draft.Forms vars.names program) (autoAdd : Bool) :
    draft.assemble autoAdd vars = ⟨some program, [], vars⟩ := by
  generalize hn : vars.names = names at h
  induction h with
  | done => rfl
  | equation he _ ih => simp [assemble, parseEquation_eq (hn ▸ he), ih]
  | branch ht _ _ _ ihy ihn ihr => simp [assemble, parseTest_eq (hn ▸ ht), ihy, ihn, ihr]
  | loop ht _ _ ihb ihr => simp [assemble, parseTest_eq (hn ▸ ht), ihb, ihr]

/-! ## Soundness -/

theorem exists_forms_of_parseEquation
    (h : (parseEquation text line vars autoAdd).diagnostics = []) :
    ∃ e, (parseEquation text line vars autoAdd).expr = some e ∧
      Expr.Forms (parseEquation text line vars autoAdd).vars.names text e ∧
      Variables.Grows autoAdd vars (parseEquation text line vars autoAdd).vars := by
  refine Expr.exists_forms ?_
  simpa [parseEquation] using h

theorem exists_forms_of_parseTest
    (h : (parseTest condition line vars autoAdd).diagnostics = []) :
    ∃ e, (parseTest condition line vars autoAdd).expr = some e ∧
      Expr.Forms (parseTest condition line vars autoAdd).vars.names (wrapped condition) e ∧
      Variables.Grows autoAdd vars (parseTest condition line vars autoAdd).vars := by
  refine Expr.exists_forms ?_
  simpa [parseTest] using h

/-- A draft with which nothing is wrong forms a program over the variables that it leaves. What its
parts form over the fewer variables that they leave, they form over those too. -/
theorem exists_forms (draft : Draft) (vars : Variables) (autoAdd : Bool)
    (h : (draft.assemble autoAdd vars).diagnostics = []) :
    ∃ program, (draft.assemble autoAdd vars).program = some program ∧
      draft.Forms (draft.assemble autoAdd vars).vars.names program ∧
      Variables.Grows autoAdd vars (draft.assemble autoAdd vars).vars := by
  induction draft generalizing vars with
  | done => exact ⟨.nil, rfl, .done, .refl vars⟩
  | broken => cases h
  | equation text line rest ih =>
    obtain ⟨he, hr⟩ := List.append_eq_nil_iff.1 h
    obtain ⟨e, he, hf, hg⟩ := exists_forms_of_parseEquation he
    obtain ⟨after, hr, hf', hg'⟩ := ih _ hr
    refine ⟨.equation e line after, ?_, .equation (hf.mono hg'.isPrefix) hf', hg.trans hg'⟩
    simp [assemble, he, hr]
  | branch condition line yes no rest ihy ihn ihr =>
    simp only [assemble, List.append_eq_nil_iff] at h
    obtain ⟨⟨⟨ht, hy⟩, hn⟩, hr⟩ := h
    obtain ⟨test, ht, hft, hgt⟩ := exists_forms_of_parseTest ht
    obtain ⟨yes', hy, hfy, hgy⟩ := ihy _ hy
    obtain ⟨no', hn, hfn, hgn⟩ := ihn _ hn
    obtain ⟨after, hr, hfr, hgr⟩ := ihr _ hr
    have hgnr := hgn.trans hgr
    have hgyr := hgy.trans hgnr
    refine ⟨.branch test yes' no' line after, ?_, .branch (hft.mono hgyr.isPrefix)
      (hfy.mono hgnr.isPrefix) (hfn.mono hgr.isPrefix) hfr, hgt.trans hgyr⟩
    simp [assemble, ht, hy, hn, hr]
  | loop condition line body rest ihb ihr =>
    simp only [assemble, List.append_eq_nil_iff] at h
    obtain ⟨⟨ht, hb⟩, hr⟩ := h
    obtain ⟨test, ht, hft, hgt⟩ := exists_forms_of_parseTest ht
    obtain ⟨body', hb, hfb, hgb⟩ := ihb _ hb
    obtain ⟨after, hr, hfr, hgr⟩ := ihr _ hr
    have hgbr := hgb.trans hgr
    refine ⟨.loop test body' line after, ?_, .loop (hft.mono hgbr.isPrefix)
      (hfb.mono hgr.isPrefix) hfr, hgt.trans hgbr⟩
    simp [assemble, ht, hb, hr]

end Draft

end FormulaScript.Script
