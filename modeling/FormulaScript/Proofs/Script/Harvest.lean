import FormulaScript.Proofs.Expr.Slots
import FormulaScript.Proofs.Script.Load

/-!
# The names of a loaded script

The first pass over a script adds the names of its variables in the order in which the script is
read. That is the order of the program: a chain of conditions is put together before any of its
expressions is parsed, and then its tests and blocks are parsed one after the other, as they stand.
So the names of a loaded script are those of its variables in the order of their first places, and
every variable has the slot of its name.
-/

namespace FormulaScript

/-- The variables of a program with their slots: those of a statement's expression, then those of
its block or blocks, then those of the statements after it. -/
def Program.uses : Program → List (String × Nat)
  | nil => []
  | equation e _ rest => e.uses ++ rest.uses
  | branch test yes no _ rest => test.uses ++ (yes.uses ++ (no.uses ++ rest.uses))
  | loop test body _ rest => test.uses ++ (body.uses ++ rest.uses)

/-- The order is that of the statements, each with its expression in front of its blocks. -/
theorem Program.uses_eq_flatMap (program : Program) :
    program.uses = program.statements.flatMap fun statement =>
      statement.expr.uses ++ statement.children.uses ++ statement.otherwise.uses := by
  induction program with
  | nil => rfl
  | equation e line rest ih => simp [uses, statements, ih]
  | branch test yes no line rest _ _ ih => simp [uses, statements, ih]
  | loop test body line rest _ ih => simp [uses, statements, ih]

namespace Script

variable {names : List String} {vars : Variables} {program : Program} {draft : Draft}

/-- Every slot of a program is the place of its name. -/
theorem Draft.Forms.places (h : draft.Forms names program) :
    ∀ s ∈ program.uses, names.idxOf? s.1 = some s.2 := by
  induction h with
  | done => exact List.forall_mem_nil _
  | equation he _ ih => exact List.forall_mem_append.2 ⟨he.hasSlots.places, ih⟩
  | branch ht _ _ _ ihy ihn ihr =>
    exact List.forall_mem_append.2 ⟨ht.hasSlots.places,
      List.forall_mem_append.2 ⟨ihy, List.forall_mem_append.2 ⟨ihn, ihr⟩⟩⟩
  | loop ht _ _ ihb ihr =>
    exact List.forall_mem_append.2 ⟨ht.hasSlots.places, List.forall_mem_append.2 ⟨ihb, ihr⟩⟩

/-- A text that forms an expression adds the names of the variables of the expression. -/
theorem vars_parse_of_forms {text : List Char} (h : Expr.Forms names text e)
    (hd : (Expr.parse text vars true).diagnostics = []) :
    (Expr.parse text vars true).vars = vars.gather (e.uses.map (·.1)) := by
  rw [Expr.vars_parse_of_faultless hd, h.hasSlots.read]

theorem vars_parseEquation (h : Expr.Forms names text e)
    (hd : (parseEquation text line vars true).diagnostics = []) :
    (parseEquation text line vars true).vars = vars.gather (e.uses.map (·.1)) :=
  vars_parse_of_forms h (by simpa [parseEquation] using hd)

theorem vars_parseTest (h : Expr.Forms names (wrapped condition) e)
    (hd : (parseTest condition line vars true).diagnostics = []) :
    (parseTest condition line vars true).vars = vars.gather (e.uses.map (·.1)) :=
  vars_parse_of_forms h (by simpa [parseTest] using hd)

/-- Assembling a draft that forms a program, over whatever names, adds the names of the variables of
the program in their order. -/
theorem Draft.Forms.vars_assemble (h : draft.Forms names program) {vars : Variables}
    (hd : (draft.assemble true vars).diagnostics = []) :
    (draft.assemble true vars).vars = vars.gather (program.uses.map (·.1)) := by
  induction h generalizing vars with
  | done => rfl
  | equation he _ ih =>
    obtain ⟨hd, hr⟩ := List.append_eq_nil_iff.1 hd
    simp only [assemble] at hr ⊢
    rw [ih hr, vars_parseEquation he hd, Program.uses, List.map_append, Variables.gather_append]
  | branch ht _ _ _ ihy ihn ihr =>
    simp only [assemble, List.append_eq_nil_iff] at hd ⊢
    obtain ⟨⟨⟨hd, hy⟩, hn⟩, hr⟩ := hd
    simp only [Program.uses, List.map_append, Variables.gather_append]
    rw [ihr hr, ihn hn, ihy hy, vars_parseTest ht hd]
  | loop ht _ _ ihb ihr =>
    simp only [assemble, List.append_eq_nil_iff] at hd ⊢
    obtain ⟨⟨hd, hb⟩, hr⟩ := hd
    simp only [Program.uses, List.map_append, Variables.gather_append]
    rw [ihr hr, ihb hb, vars_parseTest ht hd]

/-- The names of a script that has been loaded are those of the variables of its program, each once,
in the order in which they come first from left to right, and every variable has the slot of its
name. -/
theorem names_load (text : String) (h : (load text).isClean) :
    let script := load text
    script.vars.names = (script.program.uses.map (·.1)).eraseDups ∧ script.vars.names.Nodup ∧
      ∀ s ∈ script.program.uses, script.vars.names.idxOf? s.1 = some s.2 := by
  have hclean := (load_passes_agree text).2.1.1 h
  obtain ⟨program, -, hf, hn⟩ := forms_of_harvest hclean
  have hload : load text = ⟨program, .ofNames (harvest text).1 _, []⟩ :=
    (load_eq_of_isClean h).trans (parse_of_forms hn hf)
  have hnames : (load text).vars.names = (harvest text).1 := by
    rw [hload]
    exact Variables.names_ofNames hn _
  have hgathered : (harvest text).1 = (program.uses.map (·.1)).eraseDups := by
    change (assemble text.toList {} true).vars.names = _
    rw [assemble, hf.vars_assemble hclean, Variables.names_gather_empty]
  intro script
  have hprogram : script.program = program := by rw [show script = _ from hload]
  rw [hnames, hprogram]
  exact ⟨hgathered, hn, hf.places⟩

theorem names_load_nested :
    let script := load "if (b) { while (a < c) { a = a + 1; } } else { d = b; } print(e, a);"
    script.isClean ∧ script.vars.names = ["b", "a", "c", "d", "e"] ∧
    script.vars.names = (script.program.uses.map (·.1)).eraseDups ∧ script.vars.names.Nodup ∧
    ∀ s ∈ script.program.uses, script.vars.names.idxOf? s.1 = some s.2 := by
  intro script
  have h : script.isClean := by decide +kernel
  exact ⟨h, by decide +kernel, names_load _ h⟩

end Script

end FormulaScript
