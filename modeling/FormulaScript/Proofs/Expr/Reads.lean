import FormulaScript.Proofs.Expr.Places
import FormulaScript.Proofs.Store

/-!
# What an evaluation reads

An expression looks at the slots of the variables that it reads, and at no others. So on contexts
that differ in the other slots only, its evaluations have the same value or the same failure, print
and draw the same, and leave contexts that again differ in these slots only.
-/

namespace FormulaScript

open Evaluation

/-- The contexts differ at most in the values of the hidden slots. -/
structure Context.Agree (hidden : Nat → Prop) (context other : Context) : Prop where
  toShared : context.toShared = other.toShared
  length : context.values.length = other.values.length
  values : ∀ index, ¬ hidden index → context.values[index]? = other.values[index]?

/-- What the action does does not depend on the values of the hidden slots. -/
def Evaluation.Blind (hidden : Nat → Prop) (action : Evaluation α) : Prop :=
  ∀ context other : Context, context.Agree hidden other →
    match action.run context, action.run other with
    | .ok a left, .ok b left' => a = b ∧ left.Agree hidden left'
    | .error failure left, .error failure' left' => failure = failure' ∧ left.Agree hidden left'
    | _, _ => False

variable {hidden : Nat → Prop}

namespace Evaluation

theorem blind_pure (a : α) : Blind hidden (pure a) := fun _ _ h => ⟨rfl, h⟩

theorem blind_throw (failure : EvaluationError) : Blind hidden (throw failure : Evaluation α) :=
  fun _ _ h => ⟨rfl, h⟩

theorem Blind.bind {action : Evaluation α} {next : α → Evaluation β} (h : Blind hidden action)
    (h' : ∀ a, Blind hidden (next a)) : Blind hidden (action >>= next) := by
  intro context other hc
  have hb := h context other hc
  rw [EStateM.run_bind, EStateM.run_bind]
  cases hr : action.run context with
  | ok a left =>
    cases hr' : action.run other with
    | ok b left' =>
      rw [hr, hr'] at hb
      obtain ⟨rfl, hl⟩ := hb
      exact h' a left left' hl
    | error => simp [hr, hr'] at hb
  | error failure left =>
    cases hr' : action.run other with
    | ok => simp [hr, hr'] at hb
    | error failure' left' =>
      rw [hr, hr'] at hb
      exact hb

/-- Where a blind action gives a value it gives the same value on a context that agrees. -/
theorem Blind.exists_ok {action : Evaluation α} (h : Blind hidden action) {context other : Context}
    (hc : context.Agree hidden other) (hr : action.run context = .ok a left) :
    ∃ left', action.run other = .ok a left' ∧ left.Agree hidden left' := by
  have hb := h context other hc
  cases hr' : action.run other with
  | ok b left' =>
    rw [hr, hr'] at hb
    obtain ⟨rfl, hl⟩ := hb
    exact ⟨left', rfl, hl⟩
  | error => simp [hr, hr'] at hb

theorem blind_read (h : ¬ hidden index) : Blind hidden (read index) := by
  intro context other hc
  rw [run_read, run_read, ← hc.values index h]
  cases context.values[index]? with
  | some value => exact ⟨rfl, hc⟩
  | none => exact ⟨rfl, hc⟩

/-- A slot that is written may be hidden. -/
theorem blind_store (index : Nat) (value : Float) : Blind hidden (store index value) := by
  intro context other hc
  rw [run_store, run_store, ← hc.length]
  by_cases hi : index < context.values.length
  · rw [if_pos hi, if_pos hi]
    refine ⟨rfl, hc.toShared, ?_, fun i hn => ?_⟩
    · rw [List.length_set, List.length_set, hc.length]
    · rw [List.getElem?_set, List.getElem?_set, hc.length, hc.values i hn]
  · rw [if_neg hi, if_neg hi]
    exact ⟨rfl, hc⟩

/-- An action on what the session shares. -/
theorem blind_of_shared {action : Evaluation α} {f : Shared → α × Shared}
    (h : ∀ context : Context, action.run context =
      .ok (f context.toShared).1 { context with toShared := (f context.toShared).2 }) :
    Blind hidden action := by
  intro context other hc
  rw [h, h, hc.toShared]
  exact ⟨rfl, rfl, hc.length, hc.values⟩

theorem blind_write (text : String) : Blind hidden (write text) :=
  blind_of_shared (f := fun shared => ((), { shared with output := shared.output ++ text }))
    fun _ => rfl

theorem blind_draw (source : Random → Float × Random) : Blind hidden (draw source) :=
  blind_of_shared (f := fun shared =>
    ((source shared.random).1, { shared with random := (source shared.random).2 })) fun _ => rfl

theorem blind_reseed (value : Float) : Blind hidden (reseed value) :=
  blind_of_shared (f := fun shared =>
    (Number.nearest (Random.seedOfValue value).toNat 1,
      { shared with random := shared.random.reseed (Random.seedOfValue value) })) fun _ => rfl

end Evaluation

namespace Expr

mutual

/-- The variables whose values the evaluation of an expression may look at, each with its slot. An
assignment does not look at its target. -/
def reads : Expr → List (String × Nat)
  | literal .. | string .. => []
  | slot name index _ => [(name, index)]
  | unary _ operand _ => operand.reads
  | binary _ left right _ => left.reads ++ right.reads
  | print arguments _ => readsAll arguments
  | assign _ value _ => value.reads
  | update _ target value _ => target.reads ++ value.reads
  | increment _ target _ => target.reads
  | conditional test yes no _ => test.reads ++ (yes.reads ++ no.reads)

def readsAll : List Expr → List (String × Nat)
  | [] => []
  | e :: es => e.reads ++ readsAll es

end

theorem readsAll_eq_flatMap (es : List Expr) : readsAll es = es.flatMap reads := by
  induction es with
  | nil => rfl
  | cons e es ih => rw [readsAll, ih, List.flatMap_cons]

mutual

theorem reads_unplaced (e : Expr) : e.unplaced.reads = e.reads := by
  match e with
  | .literal .. | .slot .. | .string .. => rfl
  | .unary _ operand _ => exact reads_unplaced operand
  | .binary _ left right _ =>
    simp only [unplaced, reads, reads_unplaced left, reads_unplaced right]
  | .print arguments _ => exact readsAll_unplacedAll arguments
  | .assign _ value _ => exact reads_unplaced value
  | .update _ target value _ =>
    simp only [unplaced, reads, reads_unplaced target, reads_unplaced value]
  | .increment _ target _ => exact reads_unplaced target
  | .conditional test yes no _ =>
    simp only [unplaced, reads, reads_unplaced test, reads_unplaced yes, reads_unplaced no]

theorem readsAll_unplacedAll (es : List Expr) : readsAll (unplacedAll es) = readsAll es := by
  match es with
  | [] => rfl
  | e :: es => rw [unplacedAll, readsAll, reads_unplaced e, readsAll_unplacedAll es, readsAll]

end

/-- Every variable that is read has the slot of its name. -/
theorem Named.getElem?_of_mem_reads (h : Named names e) :
    ∀ read ∈ e.reads, names[read.2]? = some read.1 := by
  induction h with
  | literal | string => exact List.forall_mem_nil _
  | slot hi => exact List.forall_mem_singleton.2 hi
  | unary _ ih | increment _ ih => exact ih
  | assign _ _ _ ihv => exact ihv
  | binary _ _ ih ih' | update _ _ ih ih' => exact List.forall_mem_append.2 ⟨ih, ih'⟩
  | print _ ih =>
    rw [reads, readsAll_eq_flatMap]
    exact List.forall_mem_flatMap.2 ih
  | conditional _ _ _ ih ih' ih'' =>
    exact List.forall_mem_append.2 ⟨ih, List.forall_mem_append.2 ⟨ih', ih''⟩⟩

theorem blind_assignValue (e : Expr) (value : Float) : Blind hidden (e.assignValue value) := by
  fun_induction assignValue e value with
  | case1 => exact blind_store _ _
  | case2 _ _ _ _ ihs iht | case3 _ _ _ _ _ ihs iht => exact ihs.bind iht
  | case4 _ _ _ _ ih => exact ih
  | case5 => exact blind_throw _

theorem blind_apply (op : BinaryOp) (tolerance : Int) (a b : Float) :
    Blind hidden (op.apply tolerance a b) := by
  cases op with
  | arithmetic | comparison | both | either => exact blind_pure _
  | urand | nrand => exact (blind_draw _).bind fun _ => blind_pure _
  | unknown symbol => exact blind_throw _

mutual

/-- An evaluation depends on the slots that its expression reads only. The recursion is that of
`evaluate`. -/
theorem blind_evaluate (tolerance : Int) (e : Expr) (h : ∀ read ∈ e.reads, ¬ hidden read.2) :
    Blind hidden (e.evaluate tolerance) := by
  match e with
  | .literal .. | .string .. => exact blind_pure _
  | .slot name index _ => exact blind_read (h (name, index) List.mem_cons_self)
  | .unary op operand _ =>
    rw [evaluate]
    refine (blind_evaluate tolerance operand h).bind fun value => ?_
    cases op with
    | function f => exact blind_pure _
    | rands => exact blind_reseed value
  | .binary op left right _ =>
    obtain ⟨hl, hr⟩ := List.forall_mem_append.1 h
    rw [evaluate]
    exact (blind_evaluate tolerance left hl).bind fun a =>
      (blind_evaluate tolerance right hr).bind fun b => blind_apply op tolerance a b
  | .print arguments _ =>
    by_cases hone : ∃ name index place, arguments = [.slot name index place]
    · obtain ⟨name, index, place, rfl⟩ := hone
      rw [evaluate]
      exact (blind_read (h (name, index) List.mem_cons_self)).bind fun _ =>
        (blind_write _).bind fun _ => blind_pure _
    · rw [evaluate]
      · exact (blind_evaluateAll tolerance arguments h 0.0).bind fun _ =>
          (blind_write _).bind fun _ => blind_pure _
      · exact fun name index place h => hone ⟨name, index, place, h⟩
  | .assign target source _ =>
    rw [evaluate]
    exact (blind_evaluate tolerance source h).bind fun value => blind_assignValue target value
  | .update op target source _ =>
    obtain ⟨ht, hs⟩ := List.forall_mem_append.1 h
    rw [evaluate]
    exact (blind_evaluate tolerance target ht).bind fun old =>
      (blind_evaluate tolerance source hs).bind fun value => blind_assignValue target _
  | .increment delta target _ =>
    rw [evaluate]
    exact (blind_evaluate tolerance target h).bind fun old => blind_assignValue target _
  | .conditional test yes no _ =>
    obtain ⟨ht, h⟩ := List.forall_mem_append.1 h
    obtain ⟨hy, hn⟩ := List.forall_mem_append.1 h
    rw [evaluate]
    refine (blind_evaluate tolerance test ht).bind fun value => ?_
    split
    · exact blind_evaluate tolerance yes hy
    · exact blind_evaluate tolerance no hn

theorem blind_evaluateAll (tolerance : Int) (es : List Expr)
    (h : ∀ read ∈ readsAll es, ¬ hidden read.2) (last : Float) :
    Blind hidden (evaluateAll tolerance es last) := by
  match es with
  | [] => exact blind_pure _
  | e :: es =>
    obtain ⟨he, hes⟩ := List.forall_mem_append.1 h
    by_cases hs : ∃ text l, e = .string text l
    · obtain ⟨text, l, rfl⟩ := hs
      rw [evaluateAll]
      exact (blind_evaluateAll tolerance es hes last).bind fun _ => blind_pure _
    · rw [evaluateAll]
      · exact (blind_evaluate tolerance e he).bind fun value =>
          (blind_evaluateAll tolerance es hes value).bind fun _ => blind_pure _
      · exact fun text l h => hs ⟨text, l, h⟩

end

end Expr

end FormulaScript
