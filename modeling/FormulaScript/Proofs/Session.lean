import FormulaScript.Proofs.Requests
import FormulaScript.Proofs.Script.Endings
import FormulaScript.Proofs.Script.Replacement
import FormulaScript.Session

/-!
# Lines of a session

A line of a session is a script of its own on the variables of the defined one, perhaps with a
semicolon added. So the text of the defined script, given as a line, does what a run does.
-/

namespace FormulaScript

open Text

/-! ## Values that a caller gives -/

namespace Evaluation

variable {action : Evaluation α} {vars vars' : Variables} {values : List Float} {shared : Shared}

theorem names_runOn (given : Option (List Float)) :
    (action.runOn given vars shared).vars.names = vars.names := by
  cases hr : action.run (.start given vars shared) with
  | ok => rw [runOn_of_ok hr]
  | error => rw [runOn_of_error hr]

theorem exists_given_runOn (action : Evaluation α) (vars : Variables) (values : List Float)
    (shared : Shared) : ∃ left, (action.runOn (some values) vars shared).given = some left ∧
      left.length = values.length := by
  cases hr : action.run (.start (some values) vars shared) with
  | ok => exact ⟨_, by rw [runOn_of_ok hr]; rfl, length_overwrite _ _⟩
  | error => exact ⟨values, by rw [runOn_of_error hr], rfl⟩

/-- With a value given for every slot it does not matter what is in the slots. -/
theorem runOn_eq_of_length (h : vars.values.length = values.length)
    (h' : vars'.values.length = values.length) :
    { action.runOn (some values) vars shared with
      vars := (action.runOn (some values) vars' shared).vars } =
      action.runOn (some values) vars' shared := by
  have hs : Context.start (some values) vars shared = { shared with values } :=
    congrArg _ (overwrite_of_length h)
  have hs' : Context.start (some values) vars' shared = { shared with values } :=
    congrArg _ (overwrite_of_length h')
  cases hr : action.run { shared with values } with
  | ok => rw [runOn_of_ok (hs ▸ hr), runOn_of_ok (hs' ▸ hr)]
  | error => rw [runOn_of_error (hs ▸ hr), runOn_of_error (hs' ▸ hr)]

end Evaluation

/-! ## Lines -/

namespace Script

/-- Of a line that forms a program with or without a semicolon at its end, none is missing. -/
theorem ofScript_statementText {text : String} {program : Program}
    (h : (Draft.ofScript text.toList).Forms names program) :
    Draft.ofScript (Session.statementText text).toList = Draft.ofScript text.toList := by
  unfold Session.statementText
  split
  · rfl
  · rfl
  · next hs hb =>
    rw [String.toList_append]
    refine ofScript_append_semicolon h.whole ?_
    simpa using ⟨hs, hb⟩

theorem length_values_load (h : (load text).isClean) :
    (load text).vars.values.length = (load text).vars.names.length := by
  have hload := load_eq_of_isClean h
  rw [hload] at h
  rw [hload, vars_of_isClean h]
  exact Variables.length_values_ofNames ..

/-- The text of a script that can be loaded is the same script as a line over its names. -/
theorem parse_statementText (h : (load text).isClean) :
    parse (Session.statementText text) (load text).vars.names = load text := by
  have hload := load_eq_of_isClean h
  obtain ⟨program, -, hf, hn⟩ := forms_of_harvest ((load_passes_agree text).2.1.1 h)
  have hparse := hload.trans (parse_of_forms hn hf)
  have hnames : (load text).vars.names = (harvest text).1 := by
    rw [hparse]
    exact Variables.names_ofNames hn _
  rw [hnames, hparse]
  exact parse_of_forms hn (ofScript_statementText hf ▸ hf)

end Script

namespace Session

/-! ## What requests leave -/

/-- What a session with a defined script can be asked. -/
inductive Request
  | run
  | runLine (line : String)

/-- The session that a request leaves. -/
def after (session : Session) : Request → Session
  | .run => session.run
  | .runLine line => (session.runLine line).2

/-- The session has the script of a text defined, and a value for each of its variables. -/
structure Defines (text : String) (session : Session) : Prop where
  isDefined : session.isDefined
  program : session.script.program = (Script.load text).program
  names : session.script.vars.names = (Script.load text).vars.names
  safe : session.script.Safe
  values : session.script.vars.values.length = session.values.length
  length : session.values.length = session.script.vars.names.length

variable {text line : String} {session : Session}

theorem define_eq_of_isDefined (h : (session.define text).isDefined) :
    (Script.load text).isClean ∧ session.define text =
      { session with
        text, isDefined := true, script := Script.load text,
        values := List.replicate (Script.load text).vars.names.length 0.0 } := by
  unfold define at h ⊢
  dsimp only at h ⊢
  split at h
  · cases h
  · next hb =>
    rw [if_neg hb]
    split at h
    · next hc =>
      rw [if_pos hc]
      exact ⟨hc, rfl⟩
    · cases h

theorem defines_define (h : (session.define text).isDefined) :
    Defines text (session.define text) := by
  obtain ⟨hc, heq⟩ := define_eq_of_isDefined h
  rw [heq]
  exact {
    isDefined := rfl
    program := rfl
    names := rfl
    safe := Script.safe_load text
    values := (Script.length_values_load hc).trans List.length_replicate.symm
    length := List.length_replicate }

theorem isDefined_afterRun (run : Run Unit) :
    (session.afterRun run).isDefined = session.isDefined := by
  unfold afterRun
  dsimp only
  split <;> rfl

theorem script_afterRun (session : Session) (run : Run Unit) :
    (session.afterRun run).script = session.script := by
  unfold afterRun
  dsimp only
  split <;> rfl

theorem values_afterRun (run : Run Unit) :
    (session.afterRun run).values = run.given.getD session.values := by
  unfold afterRun
  dsimp only
  split <;> rfl

theorem length_values_afterRun (session : Session) (script : Script) (settings : Settings)
    (shared : Shared) :
    (session.afterRun (script.evaluate settings (some session.values) shared)).values.length =
      session.values.length := by
  obtain ⟨left, hg, hl⟩ := Evaluation.exists_given_runOn (script.program.run settings) script.vars
    session.values shared
  rw [values_afterRun, Script.evaluate, hg]
  exact hl

theorem Defines.run (h : Defines text session) : Defines text session.run := by
  have hnames : session.run.script.vars.names = session.script.vars.names :=
    Evaluation.names_runOn _
  have hvalues : session.run.script.vars.values.length = session.script.vars.values.length :=
    (h.safe.evaluate _ _ _).1
  have hlength : session.run.values.length = session.values.length := length_values_afterRun ..
  have hsafe : session.run.script.Safe := by
    change session.script.program.Safe session.run.script.vars.values.length
    exact hvalues ▸ h.safe
  exact {
    isDefined := (isDefined_afterRun _).trans h.isDefined
    program := h.program
    names := hnames.trans h.names
    safe := hsafe
    values := by rw [hvalues, hlength, h.values]
    length := by rw [hlength, hnames, h.length] }

theorem Defines.runLine (h : Defines text session) (line : String) :
    Defines text (session.runLine line).2 := by
  unfold Session.runLine
  dsimp only
  split
  · have hlength := length_values_afterRun session
      (Script.parse (statementText line) session.names) session.settings session.shared
    exact {
      isDefined := (isDefined_afterRun _).trans h.isDefined
      program := script_afterRun session _ ▸ h.program
      names := script_afterRun session _ ▸ h.names
      safe := script_afterRun session _ ▸ h.safe
      values := by rw [script_afterRun, hlength, h.values]
      length := by rw [script_afterRun, hlength, h.length] }
  · exact ⟨h.isDefined, h.program, h.names, h.safe, h.values, h.length⟩

theorem Defines.after (h : Defines text session) (request : Request) :
    Defines text (session.after request) := by
  cases request with
  | run => exact h.run
  | runLine line => exact h.runLine line

theorem Defines.foldl (h : Defines text session) (requests : List Request) :
    Defines text (requests.foldl Session.after session) := by
  induction requests generalizing session with
  | nil => exact h
  | cons request requests ih => exact ih (h.after request)

/-! ## The script as a line -/

/-- The text of the defined script, given as a line, does what a run does but for the slots of the
script, whatever was asked of the session before. -/
theorem Defines.runLine_eq (h : Defines text session) (hc : (Script.load text).isClean) :
    session.runLine text = (true, { session.run with script := session.script }) := by
  have hparse : Script.parse (statementText text) session.names = Script.load text := by
    unfold Session.names
    rw [if_pos h.isDefined, h.names]
    exact Script.parse_statementText hc
  have hvalues : (Script.load text).vars.values.length = session.values.length := by
    rw [Script.length_values_load hc, h.length, h.names]
  let ofLine := (Script.load text).evaluate session.settings (some session.values) session.shared
  let ofScript := session.script.evaluate session.settings (some session.values) session.shared
  -- the two runs differ only in the slots that they leave, which the session does not look at
  have hrun : { ofLine with vars := ofScript.vars } = ofScript := by
    unfold ofLine ofScript Script.evaluate
    rw [h.program]
    exact Evaluation.runOn_eq_of_length hvalues h.values
  unfold Session.runLine
  rw [hparse, if_pos hc]
  refine congrArg (true, ·) ?_
  calc session.afterRun ofLine
    _ = session.afterRun { ofLine with vars := ofScript.vars } := rfl
    _ = session.afterRun ofScript := by rw [hrun]
    _ = { session.afterRun ofScript with script := session.script } := by
      rw [← script_afterRun session ofScript]
    _ = { session.run with script := session.script } := rfl

/-- The text of a script, given as a line of the session that it is defined in, runs like the
script: it leaves the values, the output and the source of random numbers that a run leaves,
whatever was run in the session before. -/
theorem runLine_eq_run (text : String) (session : Session) (requests : List Request)
    (h : (session.define text).isDefined) :
    let reached := requests.foldl after (session.define text)
    (reached.runLine text).1 = true ∧
    (reached.runLine text).2.values = reached.run.values ∧
    (reached.runLine text).2.shared = reached.run.shared := by
  have hd := (defines_define h).foldl requests
  intro reached
  rw [hd.runLine_eq (define_eq_of_isDefined h).1]
  exact ⟨rfl, rfl, rfl⟩

theorem runLine_eq_run_comment :
    let text := "x = x + 1; print(x); # no semicolon"
    let session := (start "" {} (.ofSeed 1)).define text
    let reached := [.runLine "x = 5", .run].foldl after session
    session.isDefined ∧ (reached.runLine text).1 = true ∧
    (reached.runLine text).2.values = reached.run.values ∧
    (reached.runLine text).2.shared = reached.run.shared := by
  intro text session
  have h : session.isDefined := by
    have hc : (Script.load text).isClean := by decide +kernel
    unfold session define
    rw [if_neg (by decide +kernel)]
    dsimp only
    rw [if_pos hc]
  exact ⟨h, runLine_eq_run text (start "" {} (.ofSeed 1)) [.runLine "x = 5", .run] h⟩

end Session

end FormulaScript
