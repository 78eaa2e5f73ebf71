import FormulaScript.Equation
import FormulaScript.Proofs.Expr.Soundness

/-!
# Failures of equations

An equation fails to parse exactly when something is reported, and its failure says the last of it.
-/

namespace FormulaScript

theorem Expr.parse_eq_none_iff {text : List Char} {vars : Variables} {autoAdd : Bool} :
    (parse text vars autoAdd).expr = none ↔ (parse text vars autoAdd).diagnostics ≠ [] := by
  rw [← Option.not_isSome_iff_eq_none, isSome_parse_iff]

namespace Equation

/-- The message of a failure is the text of the last diagnostic. -/
theorem exists_last {equation : Equation} (h : equation.diagnostics ≠ []) :
    ∃ last, equation.diagnostics.getLast? = some last ∧ equation.lastError = last.text := by
  have hl := List.getLast?_eq_some_getLast h
  exact ⟨_, hl, by rw [lastError, Diagnostic.lastText, hl]; rfl⟩

end Equation

/-- The reader of expressions gives none exactly when it has reported something. So parsing an
equation fails with the text of the last report, or leaves an expression and no error. -/
theorem parse_fails_with_report :
    (∀ text vars autoAdd, (Expr.parse text vars autoAdd).expr = none ↔
      (Expr.parse text vars autoAdd).diagnostics ≠ []) ∧
    ∀ text names autoAdd, let equation := Equation.parse text names autoAdd
      (∃ failure last, equation.failure? = some failure ∧ equation.isParsed = false ∧
        failure.diagnostics = equation.diagnostics ∧
        failure.diagnostics.getLast? = some last ∧ failure.message = last.text) ∨
      (equation.failure? = none ∧ equation.isParsed = true ∧
        (∃ e, equation.expr = some e) ∧ equation.lastError = "") := by
  refine ⟨fun _ _ _ => Expr.parse_eq_none_iff, fun text names autoAdd => ?_⟩
  intro equation
  have hnone : equation.expr = none ↔ equation.diagnostics ≠ [] :=
    Expr.parse_eq_none_iff
  cases he : equation.expr with
  | none =>
    obtain ⟨last, hl, hm⟩ := Equation.exists_last (hnone.1 he)
    have hp : equation.isParsed = false := by rw [Equation.isParsed, he]; rfl
    exact .inl ⟨⟨equation.diagnostics⟩, last, by simp [Equation.failure?, hp], hp, rfl, hl, hm⟩
  | some e =>
    have hd : equation.diagnostics = [] := by
      by_contra hd
      cases he.symm.trans (hnone.2 hd)
    have hp : equation.isParsed = true := by rw [Equation.isParsed, he]; rfl
    refine .inr ⟨by simp [Equation.failure?, hp], hp, ⟨e, rfl⟩, ?_⟩
    rw [Equation.lastError, hd]
    rfl

end FormulaScript
