import FormulaScript.Proofs.Requests

/-!
# Programs one after another

A program after another one runs on what that has left, whatever the lines of its statements are.
The same holds of the values that a caller gives and gets back: it makes no difference whether they
are copied between the two.
-/

namespace FormulaScript

namespace Program

/-- The program with its lines renumbered. -/
def renumber (f : Nat → Nat) : Program → Program
  | nil => nil
  | equation e line rest => equation e (f line) (rest.renumber f)
  | branch test yes no line rest =>
    branch test (yes.renumber f) (no.renumber f) (f line) (rest.renumber f)
  | loop test body line rest => loop test (body.renumber f) (f line) (rest.renumber f)

variable {settings : Settings}

theorem run_renumber (f : Nat → Nat) (program : Program) :
    (program.renumber f).run settings = program.run settings := by
  induction program with
  | nil => rfl
  | equation e line rest ih => rw [renumber, run, run, ih]
  | branch test yes no line rest ihy ihn ihr => rw [renumber, run, run, ihy, ihn, ihr]
  | loop test body line rest ihb ihr => rw [renumber, run, run, ihb, ihr]

theorem run_append (first second : Program) :
    (first ++ second).run settings = (do first.run settings; second.run settings) := by
  induction first with
  | nil => exact (pure_bind () fun _ => second.run settings).symm
  | equation e line rest ih =>
    change (do let _ ← e.evaluate settings.tolerance; (rest ++ second).run settings) = _
    rw [ih, run, bind_assoc]
  | branch test yes no line rest _ _ ih =>
    change (do
      if ← holds settings.tolerance test then yes.run settings else no.run settings
      (rest ++ second).run settings) = _
    rw [ih, run, bind_assoc]
    refine bind_congr fun holds => ?_
    split <;> rw [bind_assoc]
  | loop test body line rest _ ih =>
    change (do
      repeatWhile (holds settings.tolerance test) (body.run settings) settings.roundLimit
      (rest ++ second).run settings) = _
    rw [ih, run, bind_assoc]

end Program

/-! ## Values that a caller gives -/

theorem overwrite_overwrite_self (a b : List Float) : overwrite a (overwrite b a) = a := by
  have hl := length_overwrite b a
  rcases Nat.le_total b.length a.length with h | h
  · have ht : overwrite b a = a.take b.length := by
      rw [overwrite, List.drop_of_length_le h, List.append_nil]
    rw [overwrite, hl, ht, List.take_of_length_le (by rw [List.length_take]; omega),
      List.take_append_drop]
  · have ht : (overwrite b a).take a.length = a := by
      rw [overwrite, List.take_of_length_le h]
      exact List.take_left
    rw [overwrite, hl, ht, List.drop_of_length_le h, List.append_nil]

/-- Of two lists of one length that are copied into another the second one stays. -/
theorem overwrite_overwrite {a b c : List Float} (h : b.length = c.length) :
    overwrite (overwrite a b) c = overwrite a c := by
  have hd : (overwrite a b).drop c.length = a.drop c.length := by
    rcases Nat.le_total a.length b.length with hl | hl
    · rw [List.drop_of_length_le (by rw [length_overwrite]; omega),
        List.drop_of_length_le (by omega)]
    · have ht : (b.take a.length).length = c.length := by rw [List.take_of_length_le hl, h]
      rw [overwrite, ← ht, List.drop_left, ht, h]
  rw [overwrite, length_overwrite, hd, ← overwrite]

namespace Evaluation

variable {given : Option (List Float)} {vars : Variables} {shared : Shared}

/-- After an action the next one starts where that has ended, also if the caller has got the values
and gives them back. -/
theorem start_after (given : Option (List Float)) (vars : Variables) (left : Context) :
    Context.start (given.map (overwrite · left.values)) { vars with values := left.values }
      left.toShared = left := by
  have hv : (given.map (overwrite · left.values)).elim left.values (overwrite left.values) =
      left.values := by
    cases given with
    | none => rfl
    | some values => exact overwrite_overwrite_self _ _
  unfold Context.start
  dsimp only
  rw [hv]

/-- Two actions that keep the number of values and end do the same one after the other as in one. -/
theorem runOn_seq {first second : Evaluation Unit} (hf : Keeps vars.values.length allowed first)
    (hs : Keeps vars.values.length allowed second)
    (h : (first.runOn given vars shared).result = .ok ()) :
    let one := first.runOn given vars shared
    let two := second.runOn one.given one.vars one.shared
    two.result = .ok () → (do first; second : Evaluation Unit).runOn given vars shared = two := by
  intro one two h'
  have hkeeps := hf (.start given vars shared) (Context.length_start ..)
  cases hr : first.run (.start given vars shared) with
  | error failure left =>
    rw [runOn_of_error hr] at h
    cases h
  | ok a left =>
    have hone : one = _ := runOn_of_ok hr
    have hstart : Context.start one.given one.vars one.shared = left := by
      rw [hone]
      exact start_after given vars left
    rw [hr] at hkeeps
    have hkeeps' := hs left hkeeps
    cases hr' : second.run left with
    | error failure left' =>
      rw [← hstart] at hr'
      have htwo : two = _ := runOn_of_error hr'
      rw [htwo] at h'
      cases h'
    | ok a' left' =>
      rw [hr'] at hkeeps'
      have hwhole : (do first; second : Evaluation Unit).run (.start given vars shared) =
          .ok a' left' := by
        rw [EStateM.run_bind, hr]
        exact hr'
      rw [← hstart] at hr'
      have htwo : two = _ := runOn_of_ok hr'
      rw [htwo, runOn_of_ok hwhole, hone]
      have hg : given.map (overwrite · left'.values) =
          (given.map (overwrite · left.values)).map (overwrite · left'.values) := by
        cases given with
        | none => rfl
        | some values => exact congrArg some (overwrite_overwrite (hkeeps.trans hkeeps'.symm)).symm
      rw [hg]

end Evaluation

end FormulaScript
