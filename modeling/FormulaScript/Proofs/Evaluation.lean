import FormulaScript.Program
import FormulaScript.Proofs.Expr.Grammar

/-!
# Evaluation does not fail

An expression is safe for a number of slots if its slots are among them, what it assigns to can be
assigned to, and its operators have a meaning. Safe expressions have a value on as many slots, and
leave as many. Every expression of the grammar is safe, so a program fails only where a loop runs
out of rounds.
-/

namespace FormulaScript

/-! ## Actions that keep the slots -/

namespace Evaluation

/-- On `n` values the action leaves `n` values, and fails only in one of the allowed ways. -/
def Keeps (n : Nat) (allowed : EvaluationError → Prop) (action : Evaluation α) : Prop :=
  ∀ context : Context, context.values.length = n →
    match action.run context with
    | .ok _ left => left.values.length = n
    | .error failure left => allowed failure ∧ left.values.length = n

variable {n : Nat} {allowed : EvaluationError → Prop}

theorem keeps_pure (a : α) : Keeps n allowed (pure a) := fun _ h => h

theorem Keeps.bind {action : Evaluation α} {next : α → Evaluation β} (h : Keeps n allowed action)
    (h' : ∀ a, Keeps n allowed (next a)) : Keeps n allowed (action >>= next) := by
  intro context hl
  have hk := h context hl
  rw [EStateM.run_bind]
  cases hr : action.run context with
  | ok a left =>
    rw [hr] at hk
    exact h' a left hk
  | error failure left =>
    rw [hr] at hk
    exact hk

theorem Keeps.exists_ok {action : Evaluation α} (h : Keeps n (fun _ => False) action)
    {context : Context} (hl : context.values.length = n) :
    ∃ a left, action.run context = .ok a left ∧ left.values.length = n := by
  have hk := h context hl
  cases hr : action.run context with
  | ok a left =>
    rw [hr] at hk
    exact ⟨a, left, rfl, hk⟩
  | error failure left =>
    rw [hr] at hk
    exact hk.1.elim

theorem keeps_write (text : String) : Keeps n allowed (write text) := fun _ h => h

theorem keeps_draw (source : Random → Float × Random) : Keeps n allowed (draw source) :=
  fun _ h => h

theorem keeps_reseed (value : Float) : Keeps n allowed (reseed value) := fun _ h => h

theorem run_read (index : Nat) (context : Context) :
    (read index).run context =
      match context.values[index]? with
      | some value => .ok value context
      | none => .error (.noSuchSlot index) context := by
  simp only [read, EStateM.run_bind, EStateM.run_get]
  cases context.values[index]? <;> rfl

theorem run_store (index : Nat) (value : Float) (context : Context) :
    (store index value).run context =
      if index < context.values.length then
        .ok value { context with values := context.values.set index value }
      else .error (.noSuchSlot index) context := by
  simp only [store, EStateM.run_bind, EStateM.run_get]
  split <;> rfl

theorem keeps_read (h : index < n) : Keeps n allowed (read index) := by
  intro context hl
  have hi : index < context.values.length := hl ▸ h
  rw [run_read, List.getElem?_eq_getElem hi]
  exact hl

theorem keeps_store (h : index < n) (value : Float) : Keeps n allowed (store index value) := by
  intro context hl
  have hi : index < context.values.length := hl ▸ h
  rw [run_store, if_pos hi]
  dsimp only
  rw [List.length_set, hl]

end Evaluation

/-! ## Safe expressions -/

namespace Expr

/-- Whether every evaluation of the expression on `n` slots has a value. -/
inductive Safe (n : Nat) : Expr → Prop
  | literal : Safe n (.literal value l)
  | slot : index < n → Safe n (.slot name index l)
  | string : Safe n (.string text l)
  | unary : Safe n operand → Safe n (.unary op operand l)
  | binary : (∀ symbol, op ≠ .unknown symbol) → Safe n left → Safe n right →
      Safe n (.binary op left right l)
  | print : (∀ e ∈ es, Safe n e) → Safe n (.print es l)
  | assign : Safe n target → target.isAssignable → Safe n value →
      Safe n (.assign target value l)
  | update : Safe n target → target.isAssignable → Safe n value →
      Safe n (.update op target value l)
  | increment : Safe n target → target.isAssignable → Safe n (.increment delta target l)
  | conditional : Safe n test → Safe n yes → Safe n no → Safe n (.conditional test yes no l)

theorem Safe.mono (h : Safe n e) (hn : n ≤ m) : Safe m e := by
  induction h with
  | literal => exact .literal
  | slot hi => exact .slot (Nat.lt_of_lt_of_le hi hn)
  | string => exact .string
  | unary _ ih => exact .unary ih
  | binary hop _ _ ihl ihr => exact .binary hop ihl ihr
  | print _ ih => exact .print ih
  | assign _ ha _ iht ihv => exact .assign iht ha ihv
  | update _ ha _ iht ihv => exact .update iht ha ihv
  | increment _ ha ih => exact .increment ih ha
  | conditional _ _ _ iht ihy ihn => exact .conditional iht ihy ihn

open Evaluation

variable {n : Nat} {allowed : EvaluationError → Prop}

/-- The targets of assignable expressions are variables, on both sides of every assignment. -/
theorem Safe.keeps_assignValue (h : Safe n e) (ha : e.isAssignable) (value : Float) :
    Keeps n allowed (e.assignValue value) := by
  induction h generalizing value with
  | slot hi => exact keeps_store hi value
  | assign _ ht _ iht ihv => exact (ihv ha value).bind fun _ => iht ht _
  | update _ ht _ iht ihv => exact (ihv ha value).bind fun _ => iht ht _
  | increment _ ht ih => exact ih ht value
  | literal | string | unary | binary | print | conditional => cases ha

theorem keeps_apply (h : ∀ symbol, op ≠ .unknown symbol) (tolerance : Int) (a b : Float) :
    Keeps n allowed (BinaryOp.apply tolerance op a b) := by
  cases op with
  | arithmetic | comparison | both | either => exact keeps_pure _
  | urand | nrand => exact (keeps_draw _).bind fun _ => keeps_pure _
  | unknown symbol => exact absurd rfl (h symbol)

theorem keeps_evaluateAll (h : ∀ e ∈ es, Keeps n allowed (evaluate tolerance e)) (last : Float) :
    Keeps n allowed (evaluateAll tolerance es last) := by
  induction es generalizing last with
  | nil => exact keeps_pure _
  | cons e es ih =>
    obtain ⟨he, hes⟩ := List.forall_mem_cons.1 h
    cases e with
    | string => exact (ih hes _).bind fun _ => keeps_pure _
    | _ => exact he.bind fun _ => (ih hes _).bind fun _ => keeps_pure _

theorem Safe.keeps_evaluate (h : Safe n e) (tolerance : Int) :
    Keeps n allowed (e.evaluate tolerance) := by
  induction h with
  | literal | string => exact keeps_pure _
  | slot hi => exact keeps_read hi
  | unary _ ih =>
    refine ih.bind fun value => ?_
    split
    · exact keeps_pure _
    · exact keeps_reseed value
  | binary hop _ _ ihl ihr => exact ihl.bind fun a => ihr.bind fun b => keeps_apply hop _ a b
  | @print es _ hs ih =>
    by_cases hone : ∃ name index place, es = [.slot name index place]
    · obtain ⟨name, index, place, rfl⟩ := hone
      have hslot := hs _ List.mem_cons_self
      cases hslot with
      | slot hi =>
        rw [evaluate]
        exact (keeps_read hi).bind fun _ => (keeps_write _).bind fun _ => keeps_pure _
    · rw [evaluate]
      · exact (keeps_evaluateAll ih _).bind fun _ => (keeps_write _).bind fun _ => keeps_pure _
      · exact fun name index place h => hone ⟨name, index, place, h⟩
  | assign ht ha _ _ ihv => exact ihv.bind fun value => ht.keeps_assignValue ha value
  | update ht ha _ iht ihv =>
    exact iht.bind fun _ => ihv.bind fun _ => ht.keeps_assignValue ha _
  | increment ht ha ih => exact ih.bind fun _ => ht.keeps_assignValue ha _
  | conditional _ _ _ iht ihy ihn =>
    refine iht.bind fun value => ?_
    split
    · exact ihy
    · exact ihn

/-! ## Expressions of the grammar -/

theorem ne_unknown_of_mem (h : (name, op) ∈ Builtin.binaryNames) (symbol : String) :
    op ≠ .unknown symbol := by
  rintro rfl
  simp [Builtin.binaryNames] at h

theorem ne_unknown_of_mem_operators {ℓ : Level} (h : (name, op) ∈ ℓ.operators)
    (symbol : String) : op ≠ .unknown symbol := by
  rintro rfl
  cases ℓ <;> simp [Level.operators] at h

theorem ne_unknown_of_ofName? (h : Builtin.ofName? name = some (.binary op)) (symbol : String) :
    op ≠ .unknown symbol := by
  unfold Builtin.ofName? at h
  split at h
  · cases h
  · cases hu : Builtin.unaryNames.lookup name with
    | some op => simp [hu] at h
    | none =>
      simp only [hu, Option.map_none, Option.none_or, Option.map_eq_some_iff] at h
      obtain ⟨op', hl, heq⟩ := h
      cases heq
      obtain ⟨before, after, hb, -⟩ := List.lookup_eq_some_iff.1 hl
      exact ne_unknown_of_mem (hb ▸ List.mem_append_right _ List.mem_cons_self) symbol

theorem isAssignable_of_isVariable {e : Expr} (h : e.isVariable) : e.isAssignable := by
  cases e with
  | slot => rfl
  | _ => cases h

theorem CallNode.safe (h : CallNode function es l e) (hs : ∀ e ∈ es, Safe n e)
    (hf : ∀ op, function = .binary op → ∀ symbol, op ≠ .unknown symbol) : Safe n e := by
  cases h with
  | unary => exact .unary (hs _ (by simp))
  | binary => exact .binary (hf _ rfl) (hs _ (by simp)) (hs _ (by simp))
  | conditional => exact .conditional (hs _ (by simp)) (hs _ (by simp)) (hs _ (by simp))

/-- The expressions of the grammar over some names are safe for as many slots. -/
theorem Derives.safe (h : Derives names ℓ ts e) : Safe names.length e := by
  induction h with
  | tighter _ _ ih => exact ih
  | string => exact .string
  | assign _ ha _ _ iht ihv => exact .assign iht ha ihv
  | update _ ha _ _ _ iht ihv => exact .update iht ha ihv
  | binary _ hm _ _ _ ihl ihr => exact .binary (ne_unknown_of_mem_operators hm) ihl ihr
  | plus _ _ ih => exact ih
  | minus _ _ ih => exact .unary ih
  | increment _ _ hv ih | decrement _ _ hv ih =>
    exact .increment ih (isAssignable_of_isVariable hv)
  | group _ _ _ ih => exact ih
  | number | pi => exact .literal
  | slot _ _ hi => exact .slot (List.idxOf?_eq_some_iff.1 hi).1
  | call _ hf _ _ _ _ he ih =>
    refine he.safe (List.forall_mem_map.2 ih) ?_
    rintro op rfl
    exact ne_unknown_of_ofName? hf
  | print _ _ _ _ _ _ ih => exact .print (List.forall_mem_map.2 ih)

end Expr

/-! ## Programs -/

namespace Program

/-- Whether every expression of the program is safe. -/
def Safe (n : Nat) : Program → Prop
  | nil => True
  | equation e _ rest => e.Safe n ∧ rest.Safe n
  | branch test yes no _ rest => test.Safe n ∧ yes.Safe n ∧ no.Safe n ∧ rest.Safe n
  | loop test body _ rest => test.Safe n ∧ body.Safe n ∧ rest.Safe n

open Evaluation

theorem keeps_repeatWhile (ht : Keeps n (· = .tooManyRounds) test)
    (hb : Keeps n (· = .tooManyRounds) body) (rounds : Nat) :
    Keeps n (· = .tooManyRounds) (repeatWhile test body rounds) := by
  induction rounds with
  | zero => exact fun _ h => ⟨rfl, h⟩
  | succ rounds ih =>
    refine ht.bind fun holds => ?_
    split
    · exact hb.bind fun _ => ih
    · exact keeps_pure _

theorem keeps_holds (h : test.Safe n) (tolerance : Int) : Keeps n allowed (holds tolerance test) :=
  (h.keeps_evaluate tolerance).bind fun _ => keeps_pure _

/-- A safe program fails only where a loop runs out of rounds. -/
theorem Safe.keeps_run {program : Program} (h : program.Safe n) (settings : Settings) :
    Keeps n (· = .tooManyRounds) (program.run settings) := by
  induction program with
  | nil => exact keeps_pure _
  | equation e line rest ih => exact (h.1.keeps_evaluate _).bind fun _ => ih h.2
  | branch test yes no line rest ihy ihn ihr =>
    refine (keeps_holds h.1 _).bind fun holds => ?_
    split
    · exact (ihy h.2.1).bind fun _ => ihr h.2.2.2
    · exact (ihn h.2.2.1).bind fun _ => ihr h.2.2.2
  | loop test body line rest ihb ihr =>
    exact (keeps_repeatWhile (keeps_holds h.1 _) (ihb h.2.1) _).bind fun _ => ihr h.2.2

end Program

end FormulaScript
