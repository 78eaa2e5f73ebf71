import FormulaScript.Console.EquationMode
import FormulaScript.Proofs.Requests
import FormulaScript.Proofs.Store

/-!
# The equation mode as an interpreter

Each line of the equation mode is parsed over a table of its own, and evaluated on a copy of the
values. Still the mode is an interpreter over one store, which each accepted line updates in turn:
the names only grow, so that no slot ever moves, and nothing is kept of the other lines.
-/

namespace FormulaScript

/-- The value of an expression on a store, and the store that is left. The output starts with the
expression. -/
def Store.calculate (tolerance : Int) (store : Store) (e : Expr) :
    Except EvaluationError Float × Store :=
  match (e.interpret tolerance).run { store with output := "" } with
  | .ok value left => (.ok value, left)
  | .error failure left => (.error failure, left)

namespace EquationMode

/-- The tree of a line that is accepted. -/
def tree? (line : String) (mode : EquationMode) : Option Expr :=
  match Request.ofLine line with
  | .other text => if text = "verbose" then none else (Equation.parse text mode.names true).expr
  | _ => none

/-- The mode after some lines, unless one of them leaves. -/
def after (mode : EquationMode) : List String → Option EquationMode
  | [] => some mode
  | line :: rest => (dialogue.answer line mode).next.bind (after · rest)

/-- The trees of those of some lines that are accepted. -/
def trees (mode : EquationMode) : List String → List Expr
  | [] => []
  | line :: rest =>
    (mode.tree? line).toList ++ (dialogue.answer line mode).next.elim [] (trees · rest)

/-- The variables of the mode are those of the store. -/
structure Mirrors (mode : EquationMode) (store : Store) : Prop where
  nodup : mode.names.Nodup
  values : mode.values = mode.names.map store.read
  within : store.Within mode.names
  random : mode.random = store.random

variable {mode next : EquationMode} {store : Store} {line : String} {e : Expr}

theorem Mirrors.length (h : Mirrors mode store) : mode.values.length = mode.names.length := by
  rw [h.values, List.length_map]

/-- New names are added after the others, and every slot of the tree is the place of its name. -/
theorem exists_of_parse (hn : mode.names.Nodup)
    (h : (Equation.parse line mode.names true).expr = some e) :
    let vars := (Equation.parse line mode.names true).vars
    mode.names <+: vars.names ∧ vars.names.Nodup ∧ vars.values.length = vars.names.length ∧
      e.Named vars.names ∧ e.Safe vars.names.length := by
  intro vars
  have hd := Expr.isSome_parse_iff.1 (Option.isSome_of_mem h)
  obtain ⟨e', he, hf, hg⟩ := Expr.exists_forms hd
  obtain rfl : e' = e := Option.some.inj (he.symm.trans h)
  have hp := hg.isPrefix
  rw [Variables.names_ofNames hn] at hp
  exact ⟨hp, hg.nodup (Variables.nodup_ofNames ..),
    hg.length_values (Variables.length_values_ofNames ..), hf.derives.named, hf.derives.safe⟩

/-- New names read as zero. -/
theorem Mirrors.values_append {names : List String} (h : Mirrors mode store) (hn : names.Nodup)
    (hp : mode.names <+: names) :
    mode.values ++ List.replicate (names.length - mode.values.length) 0.0 =
      names.map store.read := by
  obtain ⟨new, rfl⟩ := hp
  have hnew : new.map store.read = List.replicate new.length 0.0 := by
    refine List.map_eq_replicate_iff.2 fun name hm => ?_
    have hnot : name ∉ mode.names := fun hm' => (List.nodup_append.1 hn).2.2 _ hm' _ hm rfl
    rw [Store.read, h.within name hnot]
    rfl
  rw [h.length, h.values, List.length_append, Nat.add_sub_cancel_left, List.map_append, hnew]

/-- An equation that is evaluated on the values that a store has for its names. -/
theorem exists_evaluate {equation : Equation} (he : equation.expr = some e)
    (hn : equation.vars.names.Nodup)
    (hl : equation.vars.values.length = equation.vars.names.length)
    (hnamed : e.Named equation.vars.names) (hsafe : e.Safe equation.vars.names.length)
    (hw : store.Within equation.vars.names) (tolerance : Int) :
    ∃ value left, (e.interpret tolerance).run store = .ok value left ∧
      left.Within equation.vars.names ∧
      equation.evaluate tolerance (some (equation.vars.names.map store.read)) store.toShared =
        ⟨.ok value, some (equation.vars.names.map left.read),
          { equation.vars with values := equation.vars.names.map left.read }, left.toShared⟩ := by
  obtain ⟨value, left, hi, hr, hw'⟩ := hnamed.exists_interpret hsafe hn hw tolerance
  refine ⟨value, left, hi, hw', ?_⟩
  let given := equation.vars.names.map store.read
  -- the given values fill all slots, so the run starts in the slots of the store
  have hstart : Context.start (some given) equation.vars store.toShared =
      store.context equation.vars.names :=
    congrArg (Context.mk store.toShared) (overwrite_of_length (by simp [hl, given]))
  have hleft : overwrite given (left.context equation.vars.names).values =
      equation.vars.names.map left.read :=
    overwrite_of_length (by simp [given, Store.context])
  unfold Equation.evaluate
  rw [he]
  dsimp only
  rw [Evaluation.runOn_of_ok (hstart ▸ hr), Option.map_some, hleft]
  rfl

/-- An accepted line does on the mode what its tree does on the store. -/
theorem Mirrors.calculate (h : Mirrors mode store)
    (he : (Equation.parse line mode.names true).expr = some e) :
    ∃ value next, (store.calculate mode.tolerance e).1 = .ok value ∧
      mode.calculate line =
        ⟨(if mode.verbose then e.describe 0 ++ "\n" else "") ++
          (store.calculate mode.tolerance e).2.output ++ Number.format value ++ "\n", some next⟩ ∧
      Mirrors next (store.calculate mode.tolerance e).2 ∧ mode.names <+: next.names ∧
      next.tolerance = mode.tolerance := by
  obtain ⟨hp, hn, hl, hnamed, hsafe⟩ := exists_of_parse h.nodup he
  let begun : Store := { store with output := "" }
  have hbegun : Mirrors mode begun := ⟨h.nodup, h.values, h.within, h.random⟩
  have hwithin : begun.Within (Equation.parse line mode.names true).vars.names :=
    fun name hm => h.within name fun hm' => hm (hp.subset hm')
  obtain ⟨value, left, hi, hw, hrun⟩ :=
    exists_evaluate he hn hl hnamed hsafe hwithin mode.tolerance
  have hcalculate : store.calculate mode.tolerance e = (.ok value, left) := by
    unfold Store.calculate
    rw [hi]
  have hshared : (⟨mode.random, ""⟩ : Shared) = begun.toShared := by rw [h.random]
  rw [hcalculate]
  refine ⟨value, { mode with
    names := (Equation.parse line mode.names true).vars.names
    values := (Equation.parse line mode.names true).vars.names.map left.read
    random := left.random }, rfl, ?_, ⟨hn, rfl, hw, rfl⟩, hp, rfl⟩
  unfold EquationMode.calculate
  simp only [he, hbegun.values_append hn hp, hshared, hrun]
  rfl

theorem answer_of_tree {line : String} (h : mode.tree? line = some e) :
    ∃ text, dialogue.answer line mode = mode.calculate text ∧
      (Equation.parse text mode.names true).expr = some e := by
  unfold tree? at h
  split at h
  · next text hr =>
    split at h
    · cases h
    · next hv =>
      refine ⟨text, ?_, h⟩
      simp [dialogue, Dialogue.reply, hr, perform, hv]
  · cases h

/-- A blank line, one that asks for help, `verbose`, or one that does not parse. -/
theorem answer_of_no_tree {line : String} (h : mode.tree? line = none) :
    ∀ next ∈ (dialogue.answer line mode).next, next.names = mode.names ∧
      next.values = mode.values ∧ next.random = mode.random ∧ next.tolerance = mode.tolerance := by
  have hanswer : dialogue.answer line mode =
      Dialogue.reply .equation perform (.ofLine line) mode := rfl
  rw [hanswer]
  unfold tree? at h
  cases hr : Request.ofLine line with
  | nothing | help =>
    rintro _ ⟨⟩
    exact ⟨rfl, rfl, rfl, rfl⟩
  | leave => nofun
  | other text =>
    simp only [hr] at h
    rw [Dialogue.reply, perform]
    split
    · rintro _ ⟨⟩
      exact ⟨rfl, rfl, rfl, rfl⟩
    · next hv =>
      rw [if_neg hv] at h
      simp only [EquationMode.calculate, h]
      rintro _ ⟨⟩
      exact ⟨rfl, rfl, rfl, rfl⟩

/-! ## Runs -/

/-- The store that the trees of some lines leave, one after another. -/
def storeAfter (tolerance : Int) (store : Store) (trees : List Expr) : Store :=
  trees.foldl (fun store e => (store.calculate tolerance e).2) store

theorem Mirrors.answer {line : String} (h : Mirrors mode store)
    (hn : next ∈ (dialogue.answer line mode).next) :
    Mirrors next (storeAfter mode.tolerance store (mode.tree? line).toList) ∧
      mode.names <+: next.names ∧ next.tolerance = mode.tolerance := by
  cases ht : mode.tree? line with
  | none =>
    obtain ⟨hnames, hvalues, hrandom, htolerance⟩ := answer_of_no_tree ht next hn
    refine ⟨⟨hnames ▸ h.nodup, ?_, hnames ▸ h.within, hrandom.trans h.random⟩,
      hnames ▸ List.prefix_refl _, htolerance⟩
    rw [hvalues, h.values, hnames]
    rfl
  | some e =>
    obtain ⟨text, ha, he⟩ := answer_of_tree ht
    obtain ⟨value, next', -, hc, hm, hp, ht⟩ := h.calculate he
    rw [ha, hc] at hn
    cases hn
    exact ⟨hm, hp, ht⟩

/-- The induction is on the lines; what each line keeps is that the mode and the store agree. -/
theorem Mirrors.after {lines : List String} {reached : EquationMode} (h : Mirrors mode store)
    (ha : mode.after lines = some reached) :
    Mirrors reached (storeAfter mode.tolerance store (mode.trees lines)) ∧
      reached.tolerance = mode.tolerance := by
  induction lines generalizing mode store with
  | nil =>
    cases ha
    exact ⟨h, rfl⟩
  | cons line rest ih =>
    obtain ⟨next, hn, hr⟩ := Option.bind_eq_some_iff.1 ha
    obtain ⟨hm, -, ht⟩ := h.answer hn
    obtain ⟨hreached, hreached'⟩ := ih hm hr
    refine ⟨?_, hreached'.trans ht⟩
    rw [ht] at hreached
    rw [trees, hn, storeAfter, List.foldl_append]
    exact hreached

/-- The equation mode is an interpreter over one store, which starts empty and which the tree of
each accepted line updates in turn. The names are distinct and each has the value that it has in the
store. A line that is not accepted changes neither names nor values. For one that is accepted the
mode shows the value of its tree on the store, after what it has printed, and adds the new names
after the others. -/
theorem mode_is_interpreter (tolerance : Int) (verbose : Bool) (random : Random)
    (lines : List String) (mode : EquationMode)
    (h : (start tolerance verbose random).next.bind (·.after lines) = some mode) (line : String) :
    let trees := EquationMode.trees { tolerance, verbose, random } lines
    let store := storeAfter tolerance (.empty ⟨random, ""⟩) trees
    mode.names.Nodup ∧ mode.values.length = mode.names.length ∧
    mode.values = mode.names.map store.read ∧
    (mode.tree? line = none → ∀ next ∈ (dialogue.answer line mode).next,
      next.names = mode.names ∧ next.values = mode.values) ∧
    ∀ e, mode.tree? line = some e → ∃ value next,
      let (result, left) := store.calculate tolerance e
      result = .ok value ∧
      dialogue.answer line mode =
        ⟨(if mode.verbose then e.describe 0 ++ "\n" else "") ++ left.output ++
          Number.format value ++ "\n", some next⟩ ∧
      mode.names <+: next.names ∧ next.names.Nodup ∧ next.values = next.names.map left.read := by
  have hstart : Mirrors { tolerance, verbose, random } (.empty ⟨random, ""⟩) :=
    ⟨List.nodup_nil, rfl, fun _ _ => rfl, rfl⟩
  obtain ⟨hm, ht⟩ := hstart.after h
  intro trees store
  refine ⟨hm.nodup, hm.length, hm.values, fun hn next hnext => ?_, fun e he => ?_⟩
  · obtain ⟨hnames, hvalues, -⟩ := answer_of_no_tree hn next hnext
    exact ⟨hnames, hvalues⟩
  · obtain ⟨text, ha, he⟩ := answer_of_tree he
    obtain ⟨value, next, hv, hc, hm, hp, -⟩ := hm.calculate he
    rw [ht] at hv hc hm
    exact ⟨value, next, hv, ha.trans hc, hp, hm.nodup, hm.values⟩

/-- The name in a line that does not parse is not kept. -/
theorem mode_is_interpreter_rejected :
    let lines := ["x = 5", "y +", "help", "verbose"]
    let reached := (start 4 false (.ofSeed 1)).next.bind (·.after lines)
    reached.map (·.names) = some ["x"] ∧ ∃ mode, reached = some mode ∧
      mode.values = mode.names.map (storeAfter 4 (.empty ⟨.ofSeed 1, ""⟩)
        (EquationMode.trees ⟨4, false, [], [], .ofSeed 1⟩ lines)).read := by
  intro lines reached
  have hnames : reached.map (·.names) = some ["x"] := by decide +kernel
  obtain ⟨mode, h, -⟩ := Option.map_eq_some_iff.1 hnames
  obtain ⟨-, -, hvalues, -⟩ := mode_is_interpreter 4 false (.ofSeed 1) lines mode h "x"
  exact ⟨hnames, mode, h, hvalues⟩

end EquationMode

end FormulaScript
