import FormulaScript.Proofs.Evaluation

/-!
# Single steps of a program

A step evaluates the expression of the first statement and gives the program that is left to run.
Unlike `run` it has no limit on the rounds of a loop, so the steps of a program that never ends go
on forever. Every run that ends is made of steps, and no step of a safe program fails.
-/

namespace FormulaScript.Program

open Evaluation

/-- One step of a program, which gives what is left of it. -/
def step (settings : Settings) : Program → Evaluation Program
  | nil => return nil
  | equation e _ rest => do
    let _ ← e.evaluate settings.tolerance
    return rest
  | branch test yes no _ rest => do
    if ← holds settings.tolerance test then return yes ++ rest else return no ++ rest
  | loop test body line rest => do
    if ← holds settings.tolerance test then return body ++ loop test body line rest
    else return rest

/-- Some steps of a program, one after another. -/
def steps (settings : Settings) : Nat → Program → Evaluation Program
  | 0, program => return program
  | n + 1, program => do steps settings n (← program.step settings)

variable {settings : Settings} {context left : Context} {program : Program} {n : Nat}

/-! ## Runs are made of steps -/

/-- The program gets from the first context to the second one, with a program left, in some number
of steps. -/
def Reaches (settings : Settings) (program : Program) (context : Context) (rest : Program)
    (left : Context) : Prop :=
  ∃ n, (steps settings n program).run context = .ok rest left

theorem Reaches.refl (program : Program) (context : Context) :
    Reaches settings program context program context := ⟨0, rfl⟩

theorem Reaches.head (h : (program.step settings).run context = .ok next between)
    (h' : Reaches settings next between rest left) :
    Reaches settings program context rest left := by
  obtain ⟨n, hn⟩ := h'
  exact ⟨n + 1, by rw [steps, EStateM.run_bind, h]; exact hn⟩

theorem Reaches.trans (h : Reaches settings program context next between)
    (h' : Reaches settings next between rest left) :
    Reaches settings program context rest left := by
  obtain ⟨n, hn⟩ := h
  induction n generalizing program context with
  | zero =>
    cases hn
    exact h'
  | succ n ih =>
    rw [steps, EStateM.run_bind] at hn
    cases hs : (program.step settings).run context with
    | error => simp [hs] at hn
    | ok after first =>
      rw [hs] at hn
      exact .head hs (ih hn)

theorem exists_of_run_bind {action : Evaluation α} {next : α → Evaluation β}
    (h : (action >>= next).run context = .ok b left) :
    ∃ a between, action.run context = .ok a between ∧ (next a).run between = .ok b left := by
  rw [EStateM.run_bind] at h
  cases ha : action.run context with
  | error => simp [ha] at h
  | ok a between =>
    rw [ha] at h
    exact ⟨a, between, rfl, h⟩

theorem reaches_repeatWhile {test : Expr} {body : Program} {line : Nat} {rest : Program}
    (hb : ∀ {context left rest}, (body.run settings).run context = .ok () left →
      Reaches settings (body ++ rest) context rest left)
    (h : (repeatWhile (holds settings.tolerance test) (body.run settings) rounds).run context =
      .ok () left) : Reaches settings (loop test body line rest) context rest left := by
  induction rounds generalizing context with
  | zero => cases h
  | succ rounds ih =>
    obtain ⟨b, between, ht, h⟩ := exists_of_run_bind h
    cases b with
    | true =>
      obtain ⟨_, after, hbody, h⟩ := exists_of_run_bind h
      exact .head (by rw [step, EStateM.run_bind, ht]; rfl) ((hb hbody).trans (ih h))
    | false =>
      cases h
      exact .head (by rw [step, EStateM.run_bind, ht]; rfl) (.refl _ _)

/-- A run that ends is made of steps, whatever program comes after it. -/
theorem reaches_of_run (h : (program.run settings).run context = .ok () left) (after : Program) :
    Reaches settings (program ++ after) context after left := by
  induction program generalizing context left after with
  | nil =>
    cases h
    exact .refl _ _
  | equation e line rest ih =>
    obtain ⟨value, between, he, h⟩ := exists_of_run_bind h
    have hs : (step settings (equation e line (rest ++ after))).run context =
        .ok (rest ++ after) between := by
      rw [step, EStateM.run_bind, he]
      rfl
    exact .head hs (ih h after)
  | branch test yes no line rest ihy ihn ihr =>
    obtain ⟨b, between, ht, h⟩ := exists_of_run_bind h
    cases b with
    | true =>
      obtain ⟨_, between', hy, h⟩ := exists_of_run_bind h
      have hs : (step settings (branch test yes no line (rest ++ after))).run context =
          .ok (yes ++ (rest ++ after)) between := by
        rw [step, EStateM.run_bind, ht]
        rfl
      exact .head hs ((ihy hy _).trans (ihr h after))
    | false =>
      obtain ⟨_, between', hn, h⟩ := exists_of_run_bind h
      have hs : (step settings (branch test yes no line (rest ++ after))).run context =
          .ok (no ++ (rest ++ after)) between := by
        rw [step, EStateM.run_bind, ht]
        rfl
      exact .head hs ((ihn hn _).trans (ihr h after))
  | loop test body line rest ihb ihr =>
    obtain ⟨_, between, hl, h⟩ := exists_of_run_bind h
    exact (reaches_repeatWhile (fun hb => ihb hb _) hl).trans (ihr h after)

/-! ## Steps of safe programs -/

theorem Safe.append {program after : Program} (h : program.Safe n) (h' : after.Safe n) :
    (program ++ after).Safe n := by
  induction program with
  | nil => exact h'
  | equation e line rest ih => exact ⟨h.1, ih h.2⟩
  | branch test yes no line rest _ _ ihr => exact ⟨h.1, h.2.1, h.2.2.1, ihr h.2.2.2⟩
  | loop test body line rest _ ihr => exact ⟨h.1, h.2.1, ihr h.2.2⟩

/-- A step of a safe program does not fail, and leaves a safe program. -/
theorem Safe.exists_step (h : program.Safe n) (hc : context.values.length = n) :
    ∃ rest left, (program.step settings).run context = .ok rest left ∧ rest.Safe n ∧
      left.values.length = n := by
  cases program with
  | nil => exact ⟨nil, context, rfl, trivial, hc⟩
  | equation e line rest =>
    obtain ⟨value, left, he, hl⟩ := (h.1.keeps_evaluate settings.tolerance).exists_ok hc
    exact ⟨rest, left, by rw [step, EStateM.run_bind, he]; rfl, h.2, hl⟩
  | branch test yes no line rest =>
    obtain ⟨b, left, ht, hl⟩ := (keeps_holds h.1 settings.tolerance).exists_ok hc
    cases b with
    | true =>
      refine ⟨yes ++ rest, left, ?_, h.2.1.append h.2.2.2, hl⟩
      rw [step, EStateM.run_bind, ht]
      rfl
    | false =>
      refine ⟨no ++ rest, left, ?_, h.2.2.1.append h.2.2.2, hl⟩
      rw [step, EStateM.run_bind, ht]
      rfl
  | loop test body line rest =>
    obtain ⟨b, left, ht, hl⟩ := (keeps_holds h.1 settings.tolerance).exists_ok hc
    cases b with
    | true =>
      refine ⟨body ++ loop test body line rest, left, ?_, h.2.1.append h, hl⟩
      rw [step, EStateM.run_bind, ht]
      rfl
    | false =>
      refine ⟨rest, left, ?_, h.2.2, hl⟩
      rw [step, EStateM.run_bind, ht]
      rfl

/-- No number of steps of a safe program fails. -/
theorem Safe.exists_steps (h : program.Safe n) (hc : context.values.length = n) (count : Nat) :
    ∃ rest left, (program.steps settings count).run context = .ok rest left := by
  induction count generalizing program context with
  | zero => exact ⟨program, context, rfl⟩
  | succ count ih =>
    obtain ⟨next, between, hs, hsafe, hl⟩ := h.exists_step hc
    obtain ⟨rest, left, hr⟩ := ih hsafe hl
    exact ⟨rest, left, by rw [steps, EStateM.run_bind, hs]; exact hr⟩

end FormulaScript.Program
