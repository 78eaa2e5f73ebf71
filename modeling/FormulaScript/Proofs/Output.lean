import FormulaScript.Proofs.Expr.Places

/-!
# What has been printed

An evaluation adds to the output and never looks at it. So with more in front of what was printed
before, it does the same and leaves the same, behind what is in front.
-/

namespace FormulaScript

/-- The context with a text in front of its output. -/
def Context.behind (text : String) (context : Context) : Context :=
  { context with output := text ++ context.output }

namespace Evaluation

/-- What stands in front of the output makes no difference to the action. -/
def Oblivious (action : Evaluation α) : Prop :=
  ∀ (text : String) (context : Context), action.run (context.behind text) =
    match action.run context with
    | .ok a left => .ok a (left.behind text)
    | .error failure left => .error failure (left.behind text)

theorem oblivious_pure (a : α) : Oblivious (pure a) := fun _ _ => rfl

theorem oblivious_throw (failure : EvaluationError) : Oblivious (throw failure : Evaluation α) :=
  fun _ _ => rfl

theorem Oblivious.bind {action : Evaluation α} {next : α → Evaluation β} (h : Oblivious action)
    (h' : ∀ a, Oblivious (next a)) : Oblivious (action >>= next) := by
  intro text context
  rw [EStateM.run_bind, EStateM.run_bind, h text context]
  cases action.run context with
  | ok a left => exact h' a text left
  | error => rfl

theorem oblivious_read (index : Nat) : Oblivious (read index) := by
  intro text context
  have hv : (context.behind text).values = context.values := rfl
  rw [run_read, run_read, hv]
  cases context.values[index]? <;> rfl

theorem oblivious_store (index : Nat) (value : Float) : Oblivious (store index value) := by
  intro text context
  rw [run_store, run_store]
  change (if index < context.values.length then _ else _) = _
  split <;> rfl

theorem oblivious_write (text : String) : Oblivious (write text) := by
  intro front context
  change EStateM.Result.ok _ _ = EStateM.Result.ok _ _
  simp only [Context.behind, String.append_assoc]

theorem oblivious_draw (source : Random → Float × Random) : Oblivious (draw source) :=
  fun _ _ => rfl

theorem oblivious_reseed (value : Float) : Oblivious (reseed value) := fun _ _ => rfl

end Evaluation

open Evaluation

/-! ## Expressions -/

namespace Expr

theorem oblivious_assignValue (e : Expr) (value : Float) : Oblivious (e.assignValue value) := by
  fun_induction assignValue e value with
  | case1 => exact oblivious_store _ _
  | case2 _ _ _ _ ihs iht | case3 _ _ _ _ _ ihs iht => exact ihs.bind iht
  | case4 _ _ _ _ ih => exact ih
  | case5 => exact oblivious_throw _

theorem oblivious_apply (op : BinaryOp) (tolerance : Int) (a b : Float) :
    Oblivious (op.apply tolerance a b) := by
  cases op with
  | arithmetic | comparison | both | either => exact oblivious_pure _
  | urand | nrand => exact (oblivious_draw _).bind fun _ => oblivious_pure _
  | unknown symbol => exact oblivious_throw _

mutual

/-- The recursion is that of `evaluate`. -/
theorem oblivious_evaluate (tolerance : Int) (e : Expr) : Oblivious (e.evaluate tolerance) := by
  match e with
  | .literal .. | .string .. => exact oblivious_pure _
  | .slot _ index _ => exact oblivious_read index
  | .unary op operand _ =>
    rw [evaluate]
    refine (oblivious_evaluate tolerance operand).bind fun value => ?_
    cases op with
    | function f => exact oblivious_pure _
    | rands => exact oblivious_reseed value
  | .binary op left right _ =>
    rw [evaluate]
    exact (oblivious_evaluate tolerance left).bind fun a =>
      (oblivious_evaluate tolerance right).bind fun b => oblivious_apply op tolerance a b
  | .print arguments _ =>
    by_cases hone : ∃ name index place, arguments = [.slot name index place]
    · obtain ⟨name, index, place, rfl⟩ := hone
      rw [evaluate]
      exact (oblivious_read index).bind fun _ => (oblivious_write _).bind fun _ => oblivious_pure _
    · rw [evaluate]
      · exact (oblivious_evaluateAll tolerance arguments 0.0).bind fun _ =>
          (oblivious_write _).bind fun _ => oblivious_pure _
      · exact fun name index place h => hone ⟨name, index, place, h⟩
  | .assign target source _ =>
    rw [evaluate]
    exact (oblivious_evaluate tolerance source).bind fun value => oblivious_assignValue target value
  | .update op target source _ =>
    rw [evaluate]
    exact (oblivious_evaluate tolerance target).bind fun old =>
      (oblivious_evaluate tolerance source).bind fun value => oblivious_assignValue target _
  | .increment delta target _ =>
    rw [evaluate]
    exact (oblivious_evaluate tolerance target).bind fun old => oblivious_assignValue target _
  | .conditional test yes no _ =>
    rw [evaluate]
    refine (oblivious_evaluate tolerance test).bind fun value => ?_
    split
    · exact oblivious_evaluate tolerance yes
    · exact oblivious_evaluate tolerance no

theorem oblivious_evaluateAll (tolerance : Int) (es : List Expr) (last : Float) :
    Oblivious (evaluateAll tolerance es last) := by
  match es with
  | [] => exact oblivious_pure _
  | e :: es =>
    by_cases hs : ∃ text l, e = .string text l
    · obtain ⟨text, l, rfl⟩ := hs
      rw [evaluateAll]
      exact (oblivious_evaluateAll tolerance es last).bind fun _ => oblivious_pure _
    · rw [evaluateAll]
      · exact (oblivious_evaluate tolerance e).bind fun value =>
          (oblivious_evaluateAll tolerance es value).bind fun _ => oblivious_pure _
      · exact fun text l h => hs ⟨text, l, h⟩

end

end Expr

/-! ## Programs -/

namespace Program

theorem oblivious_holds (tolerance : Int) (test : Expr) : Oblivious (holds tolerance test) :=
  (Expr.oblivious_evaluate tolerance test).bind fun _ => oblivious_pure _

theorem oblivious_repeatWhile {test : Evaluation Bool} {body : Evaluation Unit}
    (ht : Oblivious test) (hb : Oblivious body) (rounds : Nat) :
    Oblivious (repeatWhile test body rounds) := by
  induction rounds with
  | zero => exact oblivious_throw _
  | succ rounds ih =>
    refine ht.bind fun holds => ?_
    split
    · exact hb.bind fun _ => ih
    · exact oblivious_pure _

/-- A run of a program does not look at the output, by induction on the program. -/
theorem oblivious_run (settings : Settings) (program : Program) :
    Oblivious (program.run settings) := by
  induction program with
  | nil => exact oblivious_pure _
  | equation e line rest ih => exact (Expr.oblivious_evaluate _ e).bind fun _ => ih
  | branch test yes no line rest ihy ihn ihr =>
    refine (oblivious_holds _ test).bind fun holds => ?_
    split
    · exact ihy.bind fun _ => ihr
    · exact ihn.bind fun _ => ihr
  | loop test body line rest ihb ihr =>
    exact (oblivious_repeatWhile (oblivious_holds _ test) ihb _).bind fun _ => ihr

end Program

end FormulaScript
