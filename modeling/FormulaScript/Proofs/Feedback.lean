import FormulaScript.Proofs.Program.Sequence

/-!
# Values that are fed back

A caller may keep a list of values of its own and give it to every call, which copies it into the
slots, as far as both reach, and copies the slots back afterwards. The first entries of the list are
the slots from then on, so that the next copy into the slots changes nothing: the calls are the same
as without a list, on slots that have been set from it once.
-/

namespace FormulaScript

/-- Variables whose first slots are set from a list. -/
def Variables.preset (vars : Variables) (values : List Float) : Variables :=
  { vars with values := overwrite vars.values values }

/-- The call after a number of others, each of them on what the one before it has left. -/
def repeated (evaluate : Option (List Float) → Variables → Shared → Run α)
    (given : Option (List Float)) (vars : Variables) (shared : Shared) : Nat → Run α
  | 0 => evaluate given vars shared
  | count + 1 =>
    let before := repeated evaluate given vars shared count
    evaluate before.given before.vars before.shared

/-- A call with a list of values leaves what the call without one leaves. The list has the slots in
its first entries, as far as both reach, and its own values in the others, and the next call starts
on the slots as they are. -/
structure FedBack (values : List Float) (slots : Nat) (fed kept : Run α) : Prop where
  result : fed.result = kept.result
  vars : fed.vars = kept.vars
  shared : fed.shared = kept.shared
  length : fed.vars.values.length = slots
  list : ∃ list, fed.given = some list ∧ list.length = values.length ∧
    list.take (min values.length slots) = fed.vars.values.take (min values.length slots) ∧
    list.drop (min values.length slots) = values.drop (min values.length slots)
  next : (Context.start fed.given fed.vars fed.shared).values = fed.vars.values

/-! ## Lists that receive the slots -/

theorem take_overwrite (values slots : List Float) :
    (overwrite values slots).take (min values.length slots.length) =
      slots.take (min values.length slots.length) := by
  have hl : (slots.take values.length).length = min values.length slots.length := List.length_take
  rw [overwrite, ← hl, List.take_left, hl, List.take_eq_take_min]

theorem drop_overwrite (values slots : List Float) :
    (overwrite values slots).drop (min values.length slots.length) =
      values.drop (min values.length slots.length) := by
  have hl : (slots.take values.length).length = min values.length slots.length := List.length_take
  rw [overwrite, ← hl, List.drop_left, hl]
  rcases Nat.le_total slots.length values.length with h | h
  · rw [Nat.min_eq_right h]
  · rw [Nat.min_eq_left h, List.drop_of_length_le h, List.drop_length]

/-! ## Calls side by side -/

/-- The call with a list of values has left what the call without one has left, and the list has
received the slots. -/
structure Mirrors (values : List Float) (slots : Nat) (fed kept : Run α) : Prop where
  result : fed.result = kept.result
  vars : fed.vars = kept.vars
  shared : fed.shared = kept.shared
  length : fed.vars.values.length = slots
  fed : fed.given = some (overwrite values fed.vars.values)
  kept : kept.given = none

variable {action : Evaluation α} {values given : List Float} {slots : Nat} {fed kept : Run α}

theorem Mirrors.fedBack (h : Mirrors values slots fed kept) : FedBack values slots fed kept := by
  refine ⟨h.result, h.vars, h.shared, h.length, ⟨_, h.fed, length_overwrite .., ?_, ?_⟩, ?_⟩
  · rw [← h.length]
    exact take_overwrite ..
  · rw [← h.length]
    exact drop_overwrite ..
  · rw [h.fed]
    exact overwrite_overwrite_self ..

namespace Evaluation

/-- One call: if both start on the same slots, and the list is the caller's but for slots that it
has received, both leave the same. -/
theorem mirrors_runOn (hk : Keeps slots allowed action) {vars vars' : Variables} {shared : Shared}
    (hslots : vars.values.length = slots)
    (hstart : (Context.start (some given) vars shared).values = vars'.values)
    (hvars : { vars with values := vars'.values } = vars')
    (hgiven : ∀ left : List Float, left.length = slots →
      overwrite given left = overwrite values left)
    (hok : (action.runOn none vars' shared).result = .ok a) :
    Mirrors values slots (action.runOn (some given) vars shared)
      (action.runOn none vars' shared) := by
  have hcontext : Context.start (some given) vars shared = .start none vars' shared :=
    congrArg (Context.mk shared) hstart
  have hkeeps := hk (.start (some given) vars shared) ((Context.length_start ..).trans hslots)
  cases hr : action.run (.start (some given) vars shared) with
  | error failure left =>
    rw [hcontext] at hr
    rw [runOn_of_error hr] at hok
    cases hok
  | ok a left =>
    rw [hr] at hkeeps
    rw [runOn_of_ok hr, runOn_of_ok (hcontext ▸ hr)]
    refine ⟨rfl, ?_, rfl, hkeeps, congrArg some (hgiven _ hkeeps), rfl⟩
    rw [← hvars]

/-- The next call: the list has the slots already, and receives the new ones in their place. -/
theorem mirrors_next (hk : Keeps slots allowed action) (h : Mirrors values slots fed kept)
    (hok : (action.runOn kept.given kept.vars kept.shared).result = .ok a) :
    Mirrors values slots (action.runOn fed.given fed.vars fed.shared)
      (action.runOn kept.given kept.vars kept.shared) := by
  rw [h.kept, ← h.shared] at hok
  rw [h.fed, h.kept, ← h.shared]
  refine mirrors_runOn hk h.length ?_ ?_ (fun left hl => ?_) hok
  · exact (overwrite_overwrite_self ..).trans (congrArg Variables.values h.vars)
  · rw [h.vars]
  · exact overwrite_overwrite (h.length.trans hl.symm)

theorem mirrors_repeated (values : List Float) {vars : Variables} {shared : Shared}
    (hk : Keeps vars.values.length allowed action) {n : Nat}
    (hok : ∀ i ≤ n, ∃ a,
      (repeated action.runOn none (vars.preset values) shared i).result = .ok a) :
    ∀ i ≤ n, Mirrors values vars.values.length
      (repeated action.runOn (some values) vars shared i)
      (repeated action.runOn none (vars.preset values) shared i) := by
  intro i
  induction i with
  | zero =>
    intro hi
    obtain ⟨a, ha⟩ := hok 0 hi
    exact mirrors_runOn hk rfl rfl rfl (fun _ _ => rfl) ha
  | succ i ih =>
    intro hi
    obtain ⟨a, ha⟩ := hok (i + 1) hi
    exact mirrors_next hk (ih (Nat.le_of_succ_le hi)) ha

/-- The calls of an action that cannot fail all have a result. -/
theorem ok_repeated {vars : Variables} (hk : Keeps vars.values.length (fun _ => False) action)
    (given : Option (List Float)) (shared : Shared) (i : Nat) :
    (repeated action.runOn given vars shared i).vars.values.length = vars.values.length ∧
      ∃ a, (repeated action.runOn given vars shared i).result = .ok a := by
  have hrun {vars' : Variables} (hl : vars'.values.length = vars.values.length)
      (given : Option (List Float)) (shared : Shared) :
      (action.runOn given vars' shared).vars.values.length = vars.values.length ∧
        ∃ a, (action.runOn given vars' shared).result = .ok a := by
    obtain ⟨hlength, hresult⟩ := Keeps.runOn (hl ▸ hk) given shared
    exact ⟨hlength.trans hl, hresult.resolve_right fun ⟨_, _, hf⟩ => hf⟩
  induction i with
  | zero => exact hrun rfl given shared
  | succ i ih => exact hrun ih.1 _ _

end Evaluation

/-! ## Scripts and equations -/

/-- The calls of an equation one after another. -/
def Equation.calls (tolerance : Int) (given : Option (List Float)) (shared : Shared)
    (equation : Equation) : Nat → Run Float :=
  repeated (fun given vars shared => { equation with vars }.evaluate tolerance given shared) given
    equation.vars shared

/-- The runs of a script one after another. -/
def Script.calls (settings : Settings) (given : Option (List Float)) (shared : Shared)
    (script : Script) : Nat → Run Unit :=
  repeated (fun given vars shared => { script with vars }.evaluate settings given shared) given
    script.vars shared

theorem Equation.calls_eq {equation : Equation} (he : equation.expr = some e) (tolerance : Int)
    (given : Option (List Float)) (shared : Shared) :
    equation.calls tolerance given shared =
      repeated (e.evaluate tolerance).runOn given equation.vars shared := by
  unfold Equation.calls Equation.evaluate
  rw [he]

/-- Whatever a script or an equation was asked before, feeding a list of values back to its calls is
the same as setting the slots from the list once and keeping them, as long as the runs of the script
end. -/
theorem fed_back_as_kept :
    (∀ (requests : List Script.Request) (settings : Settings) (values : List Float)
      (shared : Shared) (n : Nat),
        let script := requests.foldl Script.after {}
        let preset := { script with vars := script.vars.preset values }
        (∀ i ≤ n, (preset.calls settings none shared i).result = .ok ()) →
          ∀ i ≤ n, FedBack values script.vars.values.length
            (script.calls settings (some values) shared i)
            (preset.calls settings none shared i)) ∧
    (∀ (requests : List Equation.Request) (tolerance : Int) (values : List Float)
      (shared : Shared),
        let equation := requests.foldl Equation.after {}
        let preset := { equation with vars := equation.vars.preset values }
        equation.isParsed →
          ∀ i, FedBack values equation.vars.values.length
            (equation.calls tolerance (some values) shared i)
            (preset.calls tolerance none shared i)) := by
  constructor
  · intro requests settings values shared n script preset hok i hi
    have hk := Program.Safe.keeps_run (Script.safe_foldl requests) settings
    exact (Evaluation.mirrors_repeated values hk (fun i hi => ⟨(), hok i hi⟩) i hi).fedBack
  · intro requests tolerance values shared equation preset hparsed i
    obtain ⟨e, he⟩ := Option.isSome_iff_exists.1 hparsed
    have hk : Evaluation.Keeps _ (fun _ => False) (e.evaluate tolerance) :=
      (Equation.safe_foldl requests e he).keeps_evaluate tolerance
    have he' : preset.expr = some e := he
    rw [Equation.calls_eq he, Equation.calls_eq he']
    refine (Evaluation.mirrors_repeated values hk (fun i _ => ?_) i (Nat.le_refl i)).fedBack
    exact (Evaluation.ok_repeated ((length_overwrite ..).symm ▸ hk) none shared i).2

/-- Three runs with a list shorter than the slots, and the calls of an equation with a longer
one. -/
theorem fed_back_as_kept_halving :
    let script : Script := .parse "z = z + 1; x = y / z; print(x);" ["y", "x", "z"]
    let preset := { script with vars := script.vars.preset [48.0] }
    let equation : Equation := .parse "a += b" ["a", "b"] false
    let preset' := { equation with vars := equation.vars.preset [1.0, 2.0, 3.0] }
    let shared : Shared := ⟨.ofSeed 1, ""⟩
    script.isClean ∧ (∀ i ≤ 2, (preset.calls {} none shared i).result = .ok ()) ∧
      (∀ i ≤ 2, FedBack [48.0] 3 (script.calls {} (some [48.0]) shared i)
        (preset.calls {} none shared i)) ∧
      equation.isParsed ∧ ∀ i, FedBack [1.0, 2.0, 3.0] 2
        (equation.calls 100 (some [1.0, 2.0, 3.0]) shared i) (preset'.calls 100 none shared i) := by
  intro script preset equation preset' shared
  have hc : script.isClean := by decide +kernel
  have hp : equation.isParsed := by decide +kernel
  have hslots : script.vars.values.length = 3 := by decide +kernel
  have hslots' : equation.vars.values.length = 2 := by decide +kernel
  have hok : ∀ i ≤ 2, (preset.calls {} none shared i).result = .ok () := by
    have hall : ∀ i ≤ 2, (preset.calls {} none shared i).result.isOk := by decide +kernel
    intro i hi
    have h := hall i hi
    cases hr : (preset.calls {} none shared i).result with
    | ok => rfl
    | error failure =>
      rw [hr] at h
      cases h
  obtain ⟨hscript, hequation⟩ := fed_back_as_kept
  refine ⟨hc, hok, ?_, hp, ?_⟩
  · rw [← hslots]
    exact hscript [.parse "z = z + 1; x = y / z; print(x);" ["y", "x", "z"]] {} [48.0] shared 2 hok
  · rw [← hslots']
    exact hequation [.parse "a += b" ["a", "b"] false] 100 [1.0, 2.0, 3.0] shared hp

end FormulaScript
