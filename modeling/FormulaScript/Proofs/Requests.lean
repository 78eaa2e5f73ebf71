import FormulaScript.Equation
import FormulaScript.Proofs.Program.Steps
import FormulaScript.Proofs.Script.Load

/-!
# Sequences of requests

An equation or a script is asked again and again: to parse texts, whether they are right or wrong,
and to evaluate what it has parsed. Whatever it was asked before, what it holds is safe for the
slots that it has, so that an evaluation does not fail.
-/

namespace FormulaScript

/-! ## Actions on variables -/

theorem length_overwrite (target source : List Float) :
    (overwrite target source).length = target.length := by
  simp only [overwrite, List.length_append, List.length_take, List.length_drop]
  omega

theorem overwrite_of_length {target source : List Float} (h : target.length = source.length) :
    overwrite target source = source := by
  simp [overwrite, h]

/-- The context in which an action on variables starts. -/
def Context.start (given : Option (List Float)) (vars : Variables) (shared : Shared) : Context :=
  { shared with values := given.elim vars.values (overwrite vars.values) }

theorem Context.length_start (given : Option (List Float)) (vars : Variables) (shared : Shared) :
    (start given vars shared).values.length = vars.values.length := by
  cases given with
  | none => rfl
  | some values => exact length_overwrite _ _

namespace Evaluation

theorem runOn_of_ok {action : Evaluation α} {vars : Variables} {shared : Shared}
    (h : action.run (.start given vars shared) = .ok a left) :
    action.runOn given vars shared =
      ⟨.ok a, given.map (overwrite · left.values), { vars with values := left.values },
        left.toShared⟩ := by
  unfold Evaluation.runOn
  dsimp only
  rw [← Context.start, h]

theorem runOn_of_error {action : Evaluation α} {vars : Variables} {shared : Shared}
    {failure : EvaluationError}
    (h : action.run (.start given vars shared) = .error failure left) :
    action.runOn given vars shared =
      ⟨.error failure, given, { vars with values := left.values }, left.toShared⟩ := by
  unfold Evaluation.runOn
  dsimp only
  rw [← Context.start, h]

/-- An action that keeps the slots leaves variables with as many slots, with a result or an allowed
failure. -/
theorem Keeps.runOn {action : Evaluation α} {vars : Variables}
    (h : Keeps vars.values.length allowed action) (given : Option (List Float)) (shared : Shared) :
    (action.runOn given vars shared).vars.values.length = vars.values.length ∧
      ((∃ a, (action.runOn given vars shared).result = .ok a) ∨
        ∃ failure, (action.runOn given vars shared).result = .error failure ∧ allowed failure) := by
  have hk := h (.start given vars shared) (Context.length_start ..)
  cases hr : action.run (.start given vars shared) with
  | ok a left =>
    rw [hr] at hk
    rw [runOn_of_ok hr]
    exact ⟨hk, .inl ⟨a, rfl⟩⟩
  | error failure left =>
    rw [hr] at hk
    rw [runOn_of_error hr]
    exact ⟨hk.2, .inr ⟨failure, rfl, hk.1⟩⟩

end Evaluation

/-! ## Equations -/

namespace Equation

/-- What an equation can be asked. -/
inductive Request
  | parse (text : String) (names : List String) (autoAdd : Bool)
  | evaluate (tolerance : Int) (given : Option (List Float)) (shared : Shared)

/-- The equation that a request leaves. -/
def after (equation : Equation) : Request → Equation
  | .parse text names autoAdd => parse text names autoAdd
  | .evaluate tolerance given shared =>
    { equation with vars := (equation.evaluate tolerance given shared).vars }

/-- Whether the expression is safe for the slots of the equation. -/
def Safe (equation : Equation) : Prop :=
  ∀ e, equation.expr = some e → e.Safe equation.vars.values.length

theorem safe_parse (text : String) (names : List String) (autoAdd : Bool) :
    (parse text names autoAdd).Safe := by
  intro e he
  have hd := Expr.isSome_parse_iff.1 (Option.isSome_of_mem he)
  obtain ⟨e', he', hf, hg⟩ := Expr.exists_forms hd
  obtain rfl : e' = e := Option.some.inj (he'.symm.trans he)
  have hl := hg.length_values (Variables.length_values_ofNames ..)
  exact hl ▸ hf.derives.safe

theorem Safe.evaluate {equation : Equation} (h : equation.Safe) (tolerance : Int)
    (given : Option (List Float)) (shared : Shared) :
    (equation.evaluate tolerance given shared).vars.values.length = equation.vars.values.length ∧
      ∃ value, (equation.evaluate tolerance given shared).result = .ok value := by
  unfold Equation.evaluate
  cases he : equation.expr with
  | none => exact ⟨rfl, _, rfl⟩
  | some e =>
    obtain ⟨hl, hr⟩ := ((h e he).keeps_evaluate tolerance).runOn given shared
    exact ⟨hl, hr.resolve_right fun ⟨_, _, hf⟩ => hf⟩

theorem Safe.after {equation : Equation} (h : equation.Safe) (request : Request) :
    (equation.after request).Safe := by
  cases request with
  | parse text names autoAdd => exact safe_parse text names autoAdd
  | evaluate tolerance given shared =>
    intro e he
    change e.Safe (equation.evaluate tolerance given shared).vars.values.length
    exact (h.evaluate tolerance given shared).1 ▸ h e he

theorem safe_foldl (requests : List Request) : (requests.foldl after {}).Safe := by
  suffices ∀ equation : Equation, equation.Safe → (requests.foldl after equation).Safe from
    this {} nofun
  induction requests with
  | nil => exact fun _ h => h
  | cons request requests ih => exact fun equation h => ih _ (h.after request)

end Equation

/-! ## Scripts -/

namespace Script

/-- What a script can be asked. -/
inductive Request
  | parse (text : String) (names : List String)
  | load (text : String)
  | harvest (text : String)
  | evaluate (settings : Settings) (given : Option (List Float)) (shared : Shared)

/-- The script that a request leaves. Asking for the names in a text leaves it empty. -/
def after (script : Script) : Request → Script
  | .parse text names => parse text names
  | .load text => load text
  | .harvest text => ofDiagnostics (harvest text).2
  | .evaluate settings given shared =>
    { script with vars := (script.evaluate settings given shared).vars }

/-- Whether the program is safe for the slots of the script. -/
def Safe (script : Script) : Prop := script.program.Safe script.vars.values.length

theorem safe_parse (text : String) (names : List String) : (parse text names).Safe := by
  let vars := Variables.ofNames names (some names.length)
  unfold Script.parse
  dsimp only
  split
  · next hd =>
    obtain ⟨program, hp, hf, hg⟩ := Draft.exists_forms _ vars false (List.isEmpty_iff.1 hd)
    have hl := hg.length_values (Variables.length_values_ofNames ..)
    change ((assemble text.toList vars false).program.getD .nil).Safe
      (assemble text.toList vars false).vars.values.length
    change (assemble text.toList vars false).program = some program at hp
    rw [hp]
    exact hl ▸ hf.safe
  · trivial

theorem safe_ofDiagnostics (diagnostics : List Diagnostic) : (ofDiagnostics diagnostics).Safe :=
  trivial

theorem safe_load (text : String) : (load text).Safe := by
  unfold load
  dsimp only
  split
  · exact safe_parse _ _
  · exact safe_ofDiagnostics _

theorem Safe.evaluate {script : Script} (h : script.Safe) (settings : Settings)
    (given : Option (List Float)) (shared : Shared) :
    (script.evaluate settings given shared).vars.values.length = script.vars.values.length ∧
      ((script.evaluate settings given shared).result = .ok () ∨
        (script.evaluate settings given shared).result = .error .tooManyRounds) := by
  obtain ⟨hl, hr⟩ := (Program.Safe.keeps_run h settings).runOn given shared
  refine ⟨hl, ?_⟩
  rcases hr with ⟨_, ho⟩ | ⟨_, he, rfl⟩
  · exact .inl ho
  · exact .inr he

theorem Safe.after {script : Script} (h : script.Safe) (request : Request) :
    (script.after request).Safe := by
  cases request with
  | parse text names => exact safe_parse text names
  | load text => exact safe_load text
  | harvest text => exact safe_ofDiagnostics _
  | evaluate settings given shared =>
    change script.program.Safe (script.evaluate settings given shared).vars.values.length
    exact (h.evaluate settings given shared).1 ▸ h

theorem safe_foldl (requests : List Request) : (requests.foldl after {}).Safe := by
  suffices ∀ script : Script, script.Safe → (requests.foldl after script).Safe from
    this {} trivial
  induction requests with
  | nil => exact fun _ h => h
  | cons request requests ih => exact fun script h => ih _ (h.after request)

end Script

/-- Whatever an equation was asked before, its evaluation gives a number. Whatever a script was
asked before, no step of a run of its program fails, and a run as a whole fails at most where a loop
takes more rounds than it is allowed to. -/
theorem evaluation_never_fails :
    (∀ (requests : List Equation.Request) (tolerance : Int) (given : Option (List Float))
      (shared : Shared), ∃ value,
        ((requests.foldl Equation.after {}).evaluate tolerance given shared).result =
          .ok value) ∧
    (∀ (requests : List Script.Request) (settings : Settings) (given : Option (List Float))
      (shared : Shared),
        let script := requests.foldl Script.after {}
        ((script.evaluate settings given shared).result = .ok () ∨
          (script.evaluate settings given shared).result = .error .tooManyRounds) ∧
        ∀ count, ∃ rest left,
          (script.program.steps settings count).run (.start given script.vars shared) =
            .ok rest left) := by
  refine ⟨fun requests tolerance given shared => ?_, fun requests settings given shared => ?_⟩
  · exact ((Equation.safe_foldl requests).evaluate tolerance given shared).2
  · have h := Script.safe_foldl requests
    exact ⟨(h.evaluate settings given shared).2,
      Program.Safe.exists_steps h (Context.length_start ..)⟩

end FormulaScript
