import FormulaScript.Proofs.Session

/-!
# Sessions without a defined script

A text that is not blank replaces the script of a session, also when it has problems: then the
script is left empty. A blank text leaves nothing defined either, but it does not touch the script.
So a run in a session with nothing defined does nothing, unless what stands between the last script
that was defined and the run is a blank text: then that script runs again, on the slots that it was
left with.
-/

namespace FormulaScript

namespace Evaluation

theorem given_runOn_none (action : Evaluation α) (vars : Variables) (shared : Shared) :
    (action.runOn none vars shared).given = none := by
  cases hr : action.run (.start none vars shared) with
  | ok => rw [runOn_of_ok hr]; rfl
  | error => rw [runOn_of_error hr]

/-- No given values replace no slots, and receive none. -/
theorem runOn_nil (action : Evaluation α) (vars : Variables) (shared : Shared) :
    action.runOn (some []) vars shared =
      { action.runOn none vars shared with given := some [] } := by
  have hs : Context.start (some []) vars shared = .start none vars shared := by
    simp [Context.start, overwrite]
  cases hr : action.run (.start none vars shared) with
  | ok => simp [runOn_of_ok hr, runOn_of_ok (hs ▸ hr), overwrite]
  | error => rw [runOn_of_error hr, runOn_of_error (hs ▸ hr)]

end Evaluation

namespace Session

/-- What a session can be told. -/
inductive Command
  | define (text : String)
  | run
  | runLine (line : String)
  | showVariables

/-- The session that a command leaves. -/
def execute (session : Session) : Command → Session
  | .define text => session.define text
  | .run => session.run
  | .runLine line => (session.runLine line).2
  | .showVariables => session.showVariables

/-- Whether a text has nothing but blanks in it. -/
def isBlankText (text : String) : Bool := (Text.trim text.toList).isEmpty

/-- The last text with a script in it, of those that a session has been given as its script. -/
def lastScript (given : Option String) : List Command → Option String
  | [] => given
  | .define text :: commands => lastScript (if isBlankText text then given else some text) commands
  | _ :: commands => lastScript given commands

/-- The text that a session starts with, if there is a script in it. -/
def firstScript (text : String) : Option String := if isBlankText text then none else some text

variable {given : Option String} {session : Session}

/-! ## What commands keep -/

/-- The script is the one that the last text with a script in it was loaded to, but for the values
in its slots. If nothing is defined, that text has problems or a blank text has come after it. -/
structure Holds (given : Option String) (session : Session) : Prop where
  program : session.script.program = (given.elim {} Script.load).program
  names : session.script.vars.names = (given.elim {} Script.load).vars.names
  values : session.isDefined = false → session.values = []
  undefined : session.isDefined = false →
    isBlankText session.text ∨ ∃ text ∈ given, ¬ (Script.load text).isClean

theorem Holds.define (h : Holds given session) (text : String) :
    Holds (if isBlankText text then given else some text) (session.define text) := by
  unfold Session.define isBlankText
  dsimp only
  by_cases hb : (Text.trim text.toList).isEmpty
  · rw [if_pos hb, if_pos hb]
    exact ⟨h.program, h.names, fun _ => rfl, fun _ => .inl hb⟩
  · rw [if_neg hb, if_neg hb]
    split
    · exact ⟨rfl, rfl, nofun, nofun⟩
    · next hc => exact ⟨rfl, rfl, fun _ => rfl, fun _ => .inr ⟨text, rfl, hc⟩⟩

theorem text_afterRun (run : Run Unit) : (session.afterRun run).text = session.text := by
  unfold afterRun
  dsimp only
  split <;> rfl

/-- What a run leaves, of whatever script, is a session that holds the same script. -/
theorem Holds.afterRun (h : Holds given session) (script : Script) :
    Holds given (session.afterRun
      (script.evaluate session.settings (some session.values) session.shared)) where
  program := script_afterRun session _ ▸ h.program
  names := script_afterRun session _ ▸ h.names
  values hd := by
    rw [isDefined_afterRun] at hd
    refine List.eq_nil_of_length_eq_zero ?_
    rw [length_values_afterRun, h.values hd, List.length_nil]
  undefined hd := by
    rw [text_afterRun]
    exact h.undefined (isDefined_afterRun _ ▸ hd)

theorem Holds.run (h : Holds given session) : Holds given session.run := by
  have ha := h.afterRun session.script
  exact ⟨h.program, (Evaluation.names_runOn _).trans h.names, ha.values, ha.undefined⟩

theorem Holds.runLine (h : Holds given session) (line : String) :
    Holds given (session.runLine line).2 := by
  unfold Session.runLine
  dsimp only
  split
  · exact h.afterRun _
  · exact ⟨h.program, h.names, h.values, h.undefined⟩

theorem Holds.foldl (h : Holds given session) (commands : List Command) :
    Holds (lastScript given commands) (commands.foldl execute session) := by
  induction commands generalizing given session with
  | nil => exact h
  | cons command commands ih =>
    cases command with
    | define text => exact ih (h.define text)
    | run => exact ih h.run
    | runLine line => exact ih (h.runLine line)
    | showVariables => exact ih ⟨h.program, h.names, h.values, h.undefined⟩

theorem holds_start (text : String) (settings : Settings) (random : Random) :
    Holds (firstScript text) (start text settings random) := by
  have hb : isBlankText "" := by decide
  let session : Session := { settings, shared := ⟨random, ""⟩ }
  have hs : Holds none session := ⟨rfl, rfl, fun _ => rfl, fun _ => .inl hb⟩
  unfold start
  dsimp only
  split
  · next he =>
    obtain rfl := String.isEmpty_iff.1 he
    rwa [firstScript, if_pos hb]
  · exact hs.define text

/-! ## Runs -/

/-- The session that is left when its script runs on the slots as they are. -/
def runOnSlots (session : Session) : Session :=
  let run := session.script.evaluate session.settings none session.shared
  { session.afterRun run with script := { session.script with vars := run.vars } }

theorem run_of_values_eq_nil (h : session.values = []) : session.run = session.runOnSlots := by
  let run := session.script.evaluate session.settings none session.shared
  have hgiven : session.script.evaluate session.settings (some session.values) session.shared =
      { run with given := some [] } := by
    rw [h]
    exact Evaluation.runOn_nil ..
  have hnone : run.given = none := Evaluation.given_runOn_none ..
  unfold Session.run runOnSlots
  dsimp only
  rw [hgiven]
  unfold afterRun
  dsimp only
  rw [hnone, h]
  rfl

/-- Without statements and values there is nothing that a run changes. -/
theorem run_of_program_eq_nil (h : session.script.program = .nil) (hv : session.values = []) :
    session.run = session := by
  rw [run_of_values_eq_nil hv]
  unfold runOnSlots Script.evaluate
  rw [h]
  rfl

/-- A run with nothing defined leaves the whole session as it is, if there is no last text with a
script in it or that text has problems. Otherwise a blank text has come after that text, and the run
is a run of its script, on the slots as they are. -/
theorem run_undefined (text : String) (settings : Settings) (random : Random)
    (commands : List Command) :
    let session := commands.foldl execute (start text settings random)
    let last := lastScript (firstScript text) commands
    session.isDefined = false →
      session.values = [] ∧
      ((∀ text ∈ last, ¬ (Script.load text).isClean) → session.run = session) ∧
      ∀ text ∈ last, (Script.load text).isClean →
        isBlankText session.text ∧
        session.script.program = (Script.load text).program ∧
        session.script.vars.names = (Script.load text).vars.names ∧
        session.run = session.runOnSlots := by
  intro session last hd
  have hh : Holds last session := (holds_start text settings random).foldl commands
  have hv := hh.values hd
  refine ⟨hv, fun hl => ?_, fun text ht hc => ?_⟩
  · refine run_of_program_eq_nil ?_ hv
    rw [hh.program]
    cases hlast : last with
    | none => rfl
    | some text => exact ((Script.load_passes_agree text).2.2 (hl text hlast)).1
  · rw [Option.mem_def.1 ht] at hh
    refine ⟨?_, hh.program, hh.names, run_of_values_eq_nil hv⟩
    rcases hh.undefined hd with hb | ⟨text', ht', hc'⟩
    · exact hb
    · exact absurd hc (Option.some.inj ht' ▸ hc')

theorem run_undefined_print :
    let session := [.run, .define " "].foldl execute (start "print(\"a\");" {} (.ofSeed 1))
    session.isDefined = false ∧ session.values = [] ∧ isBlankText session.text ∧
    session.run = session.runOnSlots := by
  have hd : ([Command.run, .define " "].foldl execute
      (start "print(\"a\");" {} (.ofSeed 1))).isDefined = false := by
    decide +kernel
  have hl : lastScript (firstScript "print(\"a\");") [.run, .define " "] =
      some "print(\"a\");" := by
    decide +kernel
  obtain ⟨hv, -, hr⟩ := run_undefined _ _ _ _ hd
  obtain ⟨hb, -, -, hrun⟩ := hr _ hl (by decide +kernel)
  exact ⟨hd, hv, hb, hrun⟩

/-- A blank text takes the values and the names away, and leaves a script that runs. -/
theorem run_after_blank_text :
    let session := [.define ""].foldl execute (start "print(\"a\");" {} (.ofSeed 1))
    session.isDefined = false ∧ session.shared.output = "" ∧
    session.run.shared.output = "a\n" := by
  decide +kernel

end Session

end FormulaScript
