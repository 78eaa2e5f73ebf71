import FormulaScript.Console.ScriptMode
import FormulaScript.Proofs.Commands
import FormulaScript.Proofs.Output

/-!
# Sessions with a defined script

As long as a session has a script defined, the program and the names are those of its text, and
there is a value for each name. A run starts from these values, whatever earlier runs have left in
the slots of the script, so it does what a run in a session does in which nothing has been run
before.
This holds of the sessions that commands lead to, and of those behind the lines of the script mode.
-/

namespace FormulaScript

/-! ## Runs -/

/-- What was printed before a run stands in front of what the run prints. -/
theorem Evaluation.Oblivious.runOn {action : Evaluation α} (h : Oblivious action)
    (given : Option (List Float)) (vars : Variables) (random : Random) (output : String) :
    let run := action.runOn given vars ⟨random, ""⟩
    action.runOn given vars ⟨random, output⟩ =
      { run with shared := { run.shared with output := output ++ run.shared.output } } := by
  have hs : Context.start given vars ⟨random, output⟩ =
      (Context.start given vars ⟨random, ""⟩).behind output := by
    simp only [Context.start, Context.behind, String.append_empty]
  have ho := h output (.start given vars ⟨random, ""⟩)
  cases hr : action.run (.start given vars ⟨random, ""⟩) with
  | ok a left =>
    rw [hr, ← hs] at ho
    rw [runOn_of_ok hr, runOn_of_ok ho]
    rfl
  | error failure left =>
    rw [hr, ← hs] at ho
    rw [runOn_of_error hr, runOn_of_error ho]
    rfl

namespace Session

/-- A session in which nothing has been run or printed yet, with a program and values. -/
def fresh (settings : Settings) (program : Program) (values : List Float) (random : Random) :
    Session :=
  { settings, shared := ⟨random, ""⟩, script := { program, vars := { values } }, values }

variable {settings : Settings} {session : Session} {text : String}

/-- What is printed of the result of a run. -/
def complaint : Except EvaluationError Unit → String
  | .ok () => ""
  | .error failure => Text.unlines [failure.message]

theorem shared_afterRun (run : Run Unit) : (session.afterRun run).shared =
    { run.shared with output := run.shared.output ++ complaint run.result } := by
  unfold afterRun
  dsimp only
  split
  · next h =>
    rw [h, complaint, String.append_empty]
  · next h =>
    rw [h]
    rfl

/-- A run depends on the program, the values and the source of random numbers only. -/
theorem run_eq_fresh (h : session.script.vars.values.length = session.values.length) :
    let left := (fresh session.settings session.script.program session.values
      session.shared.random).run
    session.run.values = left.values ∧ session.run.shared.random = left.shared.random ∧
      session.run.shared.output = session.shared.output ++ left.shared.output := by
  let action := session.script.program.run session.settings
  let slots : Variables := { values := session.values }
  let ofFresh := action.runOn (some session.values) slots ⟨session.shared.random, ""⟩
  let ofSlots := action.runOn (some session.values) slots session.shared
  let ofSession := action.runOn (some session.values) session.script.vars session.shared
  -- the two runs differ in the slots that they leave and in what was printed before
  have hrun : { ofSession with vars := ofFresh.vars } = { ofFresh with
      shared := { ofFresh.shared with
        output := session.shared.output ++ ofFresh.shared.output } } := by
    have hslots : { ofSession with vars := ofSlots.vars } = ofSlots :=
      Evaluation.runOn_eq_of_length h rfl
    have houtput : ofSlots = _ := (session.script.program.oblivious_run session.settings).runOn
      (some session.values) slots session.shared.random session.shared.output
    rwa [houtput] at hslots
  obtain ⟨hresult, hgiven, -, hshared⟩ := Run.mk.inj hrun
  let blank := fresh session.settings session.script.program session.values session.shared.random
  have hvalues : session.run.values = blank.run.values := by
    change (session.afterRun ofSession).values = (blank.afterRun ofFresh).values
    rw [values_afterRun, values_afterRun, hgiven]
    rfl
  have hleft : session.run.shared = { ofFresh.shared with
      output := session.shared.output ++ ofFresh.shared.output ++ complaint ofFresh.result } := by
    change (session.afterRun ofSession).shared = _
    rw [shared_afterRun, hresult, hshared]
  have hblank : blank.run.shared = { ofFresh.shared with
      output := ofFresh.shared.output ++ complaint ofFresh.result } := shared_afterRun ofFresh
  refine ⟨hvalues, ?_, ?_⟩
  · rw [hleft, hblank]
  · rw [hleft, hblank, String.append_assoc]

/-- The program and the names are those that the text of the session gives, there is a value for
each name, and a run depends on the program, the values and the source of random numbers only. -/
structure InStep (settings : Settings) (session : Session) : Prop where
  program : session.script.program = (Script.load session.text).program
  names : session.script.vars.names = (Script.load session.text).vars.names
  length : session.values.length = session.script.vars.names.length
  run :
    let left := (fresh settings session.script.program session.values session.shared.random).run
    session.run.values = left.values ∧ session.run.shared.random = left.shared.random ∧
      session.run.shared.output = session.shared.output ++ left.shared.output

/-! ## What commands keep -/

/-- If a script is defined, it is the one of the text. -/
structure Current (settings : Settings) (session : Session) : Prop where
  settings : session.settings = settings
  defines : session.isDefined → Defines session.text session

theorem Current.inStep (h : Current settings session) (hd : session.isDefined) :
    InStep settings session := by
  obtain ⟨-, hprogram, hnames, -, hvalues, hlength⟩ := h.defines hd
  exact ⟨hprogram, hnames, hlength, h.settings ▸ run_eq_fresh hvalues⟩

theorem Defines.withShared (h : Defines text session) (shared : Shared) :
    Defines text { session with shared } :=
  ⟨h.isDefined, h.program, h.names, h.safe, h.values, h.length⟩

theorem Current.withShared (h : Current settings session) (shared : Shared) :
    Current settings { session with shared } :=
  ⟨h.settings, fun hd => (h.defines hd).withShared shared⟩

theorem settings_afterRun (run : Run Unit) :
    (session.afterRun run).settings = session.settings := by
  unfold afterRun
  dsimp only
  split <;> rfl

theorem text_define (text : String) (session : Session) :
    (session.define text).text = text ∧ (session.define text).settings = session.settings := by
  unfold define
  dsimp only
  split
  · exact ⟨rfl, rfl⟩
  · split <;> exact ⟨rfl, rfl⟩

theorem Current.define (h : Current settings session) (text : String) :
    Current settings (session.define text) where
  settings := (text_define text session).2.trans h.settings
  defines hd := by
    rw [(text_define text session).1]
    exact defines_define hd

theorem Current.run (h : Current settings session) : Current settings session.run where
  settings := (settings_afterRun _).trans h.settings
  defines hd := by
    have hdefines := (h.defines ((isDefined_afterRun _).symm.trans hd)).run
    rwa [show session.run.text = session.text from text_afterRun _]

theorem runLine_keeps (session : Session) (line : String) :
    (session.runLine line).2.text = session.text ∧
      (session.runLine line).2.settings = session.settings ∧
      (session.runLine line).2.isDefined = session.isDefined := by
  unfold Session.runLine
  dsimp only
  split
  · exact ⟨text_afterRun _, settings_afterRun _, isDefined_afterRun _⟩
  · exact ⟨rfl, rfl, rfl⟩

theorem Current.runLine (h : Current settings session) (line : String) :
    Current settings (session.runLine line).2 := by
  obtain ⟨htext, hsettings, hdefined⟩ := runLine_keeps session line
  refine ⟨hsettings.trans h.settings, fun hd => ?_⟩
  rw [htext]
  exact (h.defines (hdefined.symm.trans hd)).runLine line

theorem Current.execute (h : Current settings session) (command : Command) :
    Current settings (session.execute command) := by
  cases command with
  | define text => exact h.define text
  | run => exact h.run
  | runLine line => exact h.runLine line
  | showVariables => exact h.withShared _

theorem Current.foldl (h : Current settings session) (commands : List Command) :
    Current settings (commands.foldl Session.execute session) := by
  induction commands generalizing session with
  | nil => exact h
  | cons command commands ih => exact ih (h.execute command)

theorem current_start (text : String) (settings : Settings) (random : Random) :
    Current settings (start text settings random) := by
  have hempty : Current settings { settings, shared := ⟨random, ""⟩ } := ⟨rfl, nofun⟩
  unfold start
  dsimp only
  split
  · exact hempty
  · exact hempty.define text

end Session

namespace ScriptMode

open Session

variable {settings : Settings} {session : Session} {mode : ScriptMode}

/-- The mode after some lines, unless one of them leaves. -/
def after (mode : ScriptMode) : List String → Option ScriptMode
  | [] => some mode
  | line :: rest => (dialogue.answer line mode).next.bind (after · rest)

theorem current_answerWith (h : Current settings session) :
    ∀ next ∈ (answerWith session).next, Current settings next.session := by
  rintro _ ⟨⟩
  exact h.withShared _

theorem current_inDefined (h : Current settings session) {act : Session → Session}
    (ha : Current settings (act session)) : Current settings (obey.inDefined session act) := by
  unfold obey.inDefined
  split
  · exact ha
  · exact h.withShared _

theorem current_perform (h : Current settings mode.session) (line : String) :
    ∀ next ∈ (perform line mode).next, Current settings next.session := by
  unfold perform
  split
  · next command _ =>
    cases command with
    | start =>
      -- nothing is defined while a script is being typed
      rintro _ ⟨⟩
      exact ⟨h.settings, nofun⟩
    | showScript => exact current_answerWith (current_inDefined h (h.withShared _))
    | showVariables => exact current_answerWith (current_inDefined h (h.withShared _))
    | run => exact current_answerWith (current_inDefined h h.run)
  · exact current_answerWith (h.runLine _)

theorem current_edit (h : Current settings session) (draft : List String) (line : String) :
    ∀ next ∈ (edit draft line session).next, Current settings next.session := by
  unfold edit
  split
  · exact current_answerWith (h.define _)
  · rintro _ ⟨⟩
    exact h

theorem current_reply (h : Current settings mode.session) (request : Request) :
    ∀ next ∈ (Dialogue.reply .script perform request mode).next,
      Current settings next.session := by
  cases request with
  | nothing | help =>
    rintro _ ⟨⟩
    exact h
  | leave => rintro _ ⟨⟩
  | other line => exact current_perform h line

theorem current_answer (h : Current settings mode.session) (line : String) :
    ∀ next ∈ (dialogue.answer line mode).next, Current settings next.session := by
  cases hd : mode.draft with
  | none =>
    have ha : dialogue.answer line mode = Dialogue.reply .script perform (.ofLine line) mode := by
      simp only [dialogue, hd]
    exact ha ▸ current_reply h _
  | some draft =>
    have ha : dialogue.answer line mode = edit draft line mode.session := by
      simp only [dialogue, hd]
    exact ha ▸ current_edit h draft line

theorem current_after {reached : ScriptMode} {lines : List String}
    (h : Current settings mode.session) (ha : mode.after lines = some reached) :
    Current settings reached.session := by
  induction lines generalizing mode with
  | nil =>
    cases ha
    exact h
  | cons line rest ih =>
    obtain ⟨next, hn, hr⟩ := Option.bind_eq_some_iff.1 ha
    exact ih (current_answer h line next hn) hr

/-- A session that has a script defined is in step with its text, whatever commands it has been
given, and so is the one behind the script mode, whatever lines have been typed. -/
theorem defined_in_step (text : String) (settings : Settings) (random : Random) :
    (∀ commands : List Session.Command,
      let session := commands.foldl Session.execute (Session.start text settings random)
      session.isDefined → InStep settings session) ∧
    ∀ (lines : List String) (mode : ScriptMode),
      (start text settings random).next.bind (·.after lines) = some mode →
      mode.session.isDefined → InStep settings mode.session := by
  have hstart := current_start text settings random
  have hfirst : ∀ first ∈ (start text settings random).next, Current settings first.session := by
    rintro _ ⟨⟩
    exact hstart.withShared _
  refine ⟨fun commands => (hstart.foldl commands).inStep, fun lines mode h => ?_⟩
  obtain ⟨first, hf, ha⟩ := Option.bind_eq_some_iff.1 h
  exact (current_after (hfirst first hf) ha).inStep

/-- After a draw, a failed definition, a new one and a line on its variables. -/
theorem defined_in_step_again :
    let commands := [.run, .define "y =", .define "y = y + 1; z = y;", .runLine "z = 3", .run]
    let session :=
      commands.foldl Session.execute (Session.start "x = urand(0, 1);" {} (.ofSeed 1))
    let lines := ["run", "start", "y = y + 1;", "z = y;", " end", "z = 3", "run"]
    let reached := (start "x = urand(0, 1);" {} (.ofSeed 1)).next.bind (·.after lines)
    session.isDefined ∧ InStep {} session ∧
    ∃ mode, reached = some mode ∧ mode.session.isDefined ∧ InStep {} mode.session := by
  intro commands session lines reached
  have hd : session.isDefined := by decide +kernel
  have hr : reached.map (·.session.isDefined) = some true := by decide +kernel
  obtain ⟨mode, hm, hdefined⟩ := Option.map_eq_some_iff.1 hr
  obtain ⟨hcommands, hlines⟩ := defined_in_step "x = urand(0, 1);" {} (.ofSeed 1)
  exact ⟨hd, hcommands commands hd, mode, hm, hdefined, hlines lines mode hm hdefined⟩

end ScriptMode

end FormulaScript
