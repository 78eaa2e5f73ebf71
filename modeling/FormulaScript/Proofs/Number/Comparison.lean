import FormulaScript.Evaluation
import FormulaScript.Proofs.Number.Unpacked

/-!
# Comparisons up to a tolerance

The strict comparisons are those of the numbers, and the others allow for a distance of places. The
numbers and their places are in one order, so the six comparisons of two values fit together, which
of them are exact and which are not.
-/

namespace FormulaScript.Comparison

open Number

variable {u : Int} {op : Comparison} {a b : Float}

/-- The comparison of two values yields 1. -/
def Yields (tolerance : Int) (op : Comparison) (a b : Float) : Prop :=
  (BinaryOp.comparison op).apply tolerance a b = pure 1.0

theorem ofBool_injective : Function.Injective fun b => (pure (ofBool b) : Evaluation Float) := by
  intro b b' h
  let context : Context := ⟨⟨.ofSeed 0, ""⟩, []⟩
  have hrun : (EStateM.Result.ok (ofBool b) context : EStateM.Result EvaluationError _ _) =
      .ok (ofBool b') context := congrArg (·.run context) h
  have hne : ofBool true ≠ ofBool false := by decide +kernel
  injection hrun with h
  cases b <;> cases b'
  · rfl
  · exact absurd h.symm hne
  · exact absurd h hne
  · rfl

theorem yields_iff : Yields u op a b ↔ op.holds u a b = true :=
  ofBool_injective.eq_iff (a := op.holds u a b) (b := true)

/-! ## Distances of places -/

theorem isEqual_iff : isEqual u a b ↔ ((orderedBits a - orderedBits b).natAbs : Int) ≤ u :=
  decide_eq_true_iff

theorem isAtMost_iff (hu : 0 ≤ u) : isAtMost u a b ↔ orderedBits a ≤ orderedBits b + u := by
  unfold isAtMost
  split
  · exact decide_eq_true_iff
  · exact iff_of_true rfl (by omega)

/-! ## The six comparisons -/

section

variable (ha : a.isNaN = false) (hb : b.isNaN = false) (hu : 0 ≤ u)

theorem yields_equal : Yields u .equal a b ↔
    ((orderedBits a - orderedBits b).natAbs : Int) ≤ u :=
  yields_iff.trans isEqual_iff

theorem yields_notEqual : Yields u .notEqual a b ↔ ¬ Yields u .equal a b := by
  rw [yields_iff, yields_iff, holds, holds, Bool.not_eq_true']
  exact Bool.eq_false_iff

include ha hb in
theorem yields_less : Yields u .less a b ↔ orderedBits a < orderedBits b :=
  yields_iff.trans (decide_eq_true_iff.trans (lt_iff_orderedBits_lt ha hb))

include ha hb in
theorem yields_greater : Yields u .greater a b ↔ orderedBits b < orderedBits a :=
  yields_iff.trans (decide_eq_true_iff.trans (lt_iff_orderedBits_lt hb ha))

include hu in
theorem yields_atMost : Yields u .atMost a b ↔ orderedBits a ≤ orderedBits b + u :=
  yields_iff.trans (isAtMost_iff hu)

include hu in
theorem yields_atLeast : Yields u .atLeast a b ↔ orderedBits b ≤ orderedBits a + u :=
  yields_iff.trans (isAtMost_iff hu)

end

/-- With a larger tolerance the comparisons that allow for one still hold. -/
theorem Yields.mono {u' : Int} (hu : 0 ≤ u) (h : u ≤ u') (hop : op ∈ [equal, atMost, atLeast])
    (hy : Yields u op a b) : Yields u' op a b := by
  simp only [List.mem_cons, List.not_mem_nil, or_false] at hop
  rcases hop with rfl | rfl | rfl
  · rw [yields_equal] at hy ⊢
    exact hy.trans h
  · rw [yields_atMost (by omega)] at hy ⊢
    omega
  · rw [yields_atLeast (by omega)] at hy ⊢
    omega

/-- The six comparisons of two numbers fit together, whichever of them the tolerance widens. -/
theorem comparisons_coherent (ha : a.isNaN = false) (hb : b.isNaN = false) (hu : 0 ≤ u) :
    (∀ op, Yields u op a b ∨ (BinaryOp.comparison op).apply u a b = pure 0.0) ∧
    (Yields u .equal a b ↔ Yields u .atMost a b ∧ Yields u .atLeast a b) ∧
    (Yields u .atMost a b ∨ Yields u .atLeast a b) ∧
    (Yields u .less a b → Yields u .atMost a b ∧ ¬ Yields u .greater a b) ∧
    (¬ Yields u .less a b → ¬ Yields u .greater a b → Yields u .equal a b) ∧
    (Yields u .notEqual a b ↔ ¬ Yields u .equal a b) ∧
    (Yields u .atLeast a b ↔ Yields u .atMost b a) ∧
    ∀ u' ≥ u, ∀ op ∈ [equal, atMost, atLeast], Yields u op a b → Yields u' op a b := by
  refine ⟨fun op => ?_, ?_, ?_, ?_, ?_, yields_notEqual, .rfl, fun u' h op hop => .mono hu h hop⟩
  · cases h : op.holds u a b
    · exact .inr (congrArg (fun b => (pure (ofBool b) : Evaluation Float)) h)
    · exact .inl (yields_iff.2 h)
  all_goals
    simp only [yields_equal, yields_less ha hb, yields_greater ha hb, yields_atMost hu,
      yields_atLeast hu]
    omega

/-- The least double above zero is two places above the greatest below it. -/
theorem comparisons_coherent_around_zero :
    let a : Float := 5e-324
    let b : Float := -5e-324
    a.isNaN = false ∧ b.isNaN = false ∧ (0 : Int) ≤ 2 ∧ Yields 2 .greater a b ∧
      Yields 2 .atMost a b ∧ Yields 2 .atLeast a b ∧ Yields 100 .equal a b := by
  have ha : (5e-324 : Float).isNaN = false := by decide +kernel
  have hb : (-5e-324 : Float).isNaN = false := by decide +kernel
  have hgreater : Yields 2 .greater 5e-324 (-5e-324) := yields_iff.2 (by decide +kernel)
  have hequal : Yields 2 .equal 5e-324 (-5e-324) := yields_iff.2 (by decide +kernel)
  obtain ⟨-, hboth, -, -, -, -, -, hmono⟩ :=
    comparisons_coherent ha hb (show (0 : Int) ≤ 2 by decide)
  obtain ⟨hle, hge⟩ := hboth.1 hequal
  exact ⟨ha, hb, by decide, hgreater, hle, hge, hmono 100 (by decide) .equal (by decide) hequal⟩

end FormulaScript.Comparison
