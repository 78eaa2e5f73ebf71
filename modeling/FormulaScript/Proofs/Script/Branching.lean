import FormulaScript.Proofs.Script.Assembly
import Mathlib.Data.List.Forall2

/-!
# Chains of branches

An `if` with `else if` and `else` is assembled to nested branches. Running them is the same as
looking for the first branch whose test holds: the tests are asked one after another, each in the
state that the one before has left, and none after the first that holds.
-/

namespace FormulaScript

namespace Program

/-- Looking through tests with their bodies comes to the body of the first test that holds, or to
none if no test holds. Each test is asked in the context that the one before has left. -/
inductive Picks (tolerance : Int) :
    List (Expr × Program) → Context → Option Program → Context → Prop
  | none (context : Context) : Picks tolerance [] context none context
  | first : (holds tolerance test).run context = .ok true left →
      Picks tolerance ((test, body) :: others) context (some body) left
  | later : (holds tolerance test).run context = .ok false middle →
      Picks tolerance others middle chosen left →
      Picks tolerance ((test, body) :: others) context chosen left

/-- On `n` slots at least, the program runs the body that is picked, or `no` if none is, and then
`after`. -/
def RunsPicked (settings : Settings) (n : Nat) (parts : List (Expr × Program))
    (no after program : Program) : Prop :=
  ∀ context : Context, n ≤ context.values.length →
    ∃ chosen between, Picks settings.tolerance parts context chosen between ∧
      (program.run settings).run context =
        ((chosen.getD no).run settings >>= fun _ => after.run settings).run between

variable {settings : Settings} {n : Nat} {test : Expr} {body no after others program : Program}
  {parts : List (Expr × Program)}

theorem run_bind_nil (program : Program) (settings : Settings) :
    (program.run settings >>= fun _ => nil.run settings) = program.run settings :=
  bind_pure (program.run settings)

theorem runsPicked_nil (settings : Settings) (n : Nat) (no : Program) :
    RunsPicked settings n [] no .nil no := fun context _ =>
  ⟨none, context, .none context, by rw [run_bind_nil]; rfl⟩

/-- A branch asks its test once, and leaves it to the others if the test does not hold. -/
theorem RunsPicked.branch (h : RunsPicked settings n parts no .nil others) (ht : test.Safe n)
    (line : Nat) (after : Program) :
    RunsPicked settings n ((test, body) :: parts) no after
      (.branch test body others line after) := by
  intro context hl
  have hk : Evaluation.Keeps context.values.length (fun _ => False) _ :=
    keeps_holds (ht.mono hl) settings.tolerance
  obtain ⟨yes, left, hr, hleft⟩ := hk.exists_ok rfl
  have hrun : ((Program.branch test body others line after).run settings).run context =
      ((if yes then body else others).run settings >>= fun _ => after.run settings).run left := by
    rw [Program.run, EStateM.run_bind, hr]
    cases yes <;> rfl
  cases yes with
  | true => exact ⟨some body, left, .first hr, hrun⟩
  | false =>
    obtain ⟨chosen, between, hp, hothers⟩ := h left (hleft ▸ hl)
    refine ⟨chosen, between, .later hr hp, ?_⟩
    rw [run_bind_nil] at hothers
    rw [hrun, EStateM.run_bind, EStateM.run_bind, ← hothers]
    rfl

end Program

namespace Script

open Program

/-- The test and the body that a branch of a draft forms. -/
def FormsBranch (names : List String) (branch : List Char × Nat × Draft) (part : Expr × Program) :
    Prop :=
  Expr.Forms names (wrapped branch.1) part.1 ∧ branch.2.2.Forms names part.2

variable {names : List String} {branches : List (List Char × Nat × Draft)} {otherwise rest : Draft}

/-- The induction is on the chain, of which each branch but the first stands alone in the `else` of
the one before. -/
theorem exists_parts_of_done
    (h : (Draft.ofChain .done otherwise branches).Forms names program) :
    ∃ parts no, List.Forall₂ (FormsBranch names) branches parts ∧ otherwise.Forms names no ∧
      ∀ settings, RunsPicked settings names.length parts no .nil program := by
  induction branches generalizing program with
  | nil => exact ⟨[], program, .nil, h, fun settings => runsPicked_nil settings _ program⟩
  | cons branch branches ih =>
    cases h with
    | branch ht hy hn hr =>
      cases hr
      obtain ⟨parts, no, hparts, hno, hruns⟩ := ih hn
      exact ⟨_ :: parts, no, .cons ⟨ht, hy⟩ hparts, hno, fun settings =>
        (hruns settings).branch ht.derives.safe _ .nil⟩

theorem exists_parts (hne : branches ≠ [])
    (h : (Draft.ofChain rest otherwise branches).Forms names program) :
    ∃ parts no after, List.Forall₂ (FormsBranch names) branches parts ∧
      otherwise.Forms names no ∧ rest.Forms names after ∧
      ∀ settings, RunsPicked settings names.length parts no after program := by
  cases branches with
  | nil => exact absurd rfl hne
  | cons branch branches =>
    cases h with
    | branch ht hy hn hr =>
      obtain ⟨parts, no, hparts, hno, hruns⟩ := exists_parts_of_done hn
      exact ⟨_ :: parts, no, _, .cons ⟨ht, hy⟩ hparts, hno, hr, fun settings =>
        (hruns settings).branch ht.derives.safe _ _⟩

/-- A chain of branches with which nothing is wrong is assembled to a statement that runs the body
of the first branch whose test holds, or the `else` block if there is none. Only the tests up to
that branch are asked, each once, in the order of the chain and each in the state that the one
before has left. Then comes what stands after the chain. -/
theorem run_chain {branches : List (List Char × Nat × Draft)} {otherwise rest : Draft}
    {vars : Variables} {autoAdd : Bool} (hne : branches ≠ [])
    (h : ((Draft.ofChain rest otherwise branches).assemble autoAdd vars).diagnostics = []) :
    let assembled := (Draft.ofChain rest otherwise branches).assemble autoAdd vars
    let names := assembled.vars.names
    ∃ program parts no after, assembled.program = some program ∧
      List.Forall₂ (FormsBranch names) branches parts ∧ otherwise.Forms names no ∧
      rest.Forms names after ∧
      ∀ (settings : Settings) (context : Context), names.length ≤ context.values.length →
        ∃ chosen between, Picks settings.tolerance parts context chosen between ∧
          (program.run settings).run context =
            ((chosen.getD no).run settings >>= fun _ => after.run settings).run between := by
  intro assembled names
  obtain ⟨program, hp, hf, -⟩ := Draft.exists_forms _ vars autoAdd h
  obtain ⟨parts, no, after, hparts, hno, hafter, hruns⟩ := exists_parts hne hf
  exact ⟨program, parts, no, after, hp, hparts, hno, hafter, hruns⟩

/-- Whether the second test is asked, which adds one to `x`, depends on the first. -/
theorem run_chain_else_if :
    let chain := Draft.ofChain .done (.equation "y=3".toList 3 .done)
      [("x<2".toList, 1, .equation "y=1".toList 1 .done),
        ("++x<4".toList, 2, .equation "y=2".toList 2 .done)]
    let assembled := chain.assemble false (.ofNames ["x", "y"])
    assembled.diagnostics = [] ∧
      ∃ program parts no, assembled.program = some program ∧ parts.length = 2 ∧
        ∀ (settings : Settings) (context : Context), context.values.length = 2 →
          ∃ chosen between, Picks settings.tolerance parts context chosen between ∧
            (program.run settings).run context =
              ((chosen.getD no).run settings).run between := by
  intro chain assembled
  have hd : assembled.diagnostics = [] := List.isEmpty_iff.1 (by decide +kernel)
  have hl : assembled.vars.names.length = 2 := by decide +kernel
  obtain ⟨program, parts, no, after, hp, hparts, -, hafter, hruns⟩ := run_chain (by simp) hd
  cases hafter
  refine ⟨hd, program, parts, no, hp, hparts.length_eq.symm, fun settings context hc => ?_⟩
  obtain ⟨chosen, between, hpicks, hrun⟩ := hruns settings context (hl.trans hc.symm).le
  rw [run_bind_nil] at hrun
  exact ⟨chosen, between, hpicks, hrun⟩

end Script

end FormulaScript
