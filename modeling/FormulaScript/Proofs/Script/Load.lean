import FormulaScript.Proofs.Script.Assembly
import FormulaScript.Script

/-!
# Loading a script

A script is loaded in two passes: the first adds the names that it meets, the second parses the text
again over those names. The second pass builds what the first has built: the first pass only adds
names after the ones that it has, so each expression forms the same tree over all of them.
-/

namespace FormulaScript.Script

/-- A text with which nothing is wrong while its names are added forms a program over its names. -/
theorem forms_of_harvest (h : (harvest text).2 = []) :
    ∃ program, (assemble text.toList {} true).program = some program ∧
      (Draft.ofScript text.toList).Forms (harvest text).1 program ∧ (harvest text).1.Nodup := by
  obtain ⟨program, hp, hf, hg⟩ := Draft.exists_forms _ {} true h
  exact ⟨program, hp, hf, hg.nodup List.nodup_nil⟩

/-- A text whose draft forms a program over the names is parsed to it. -/
theorem parse_eq_of_forms {names : List String} {program : Program}
    (h : (Draft.ofScript text.toList).Forms (Variables.ofNames names (some names.length)).names
      program) : parse text names = ⟨program, .ofNames names (some names.length), []⟩ := by
  have heq := h.assemble_eq false
  simp [parse, assemble, heq]

theorem parse_of_forms {names : List String} {program : Program} (hn : names.Nodup)
    (h : (Draft.ofScript text.toList).Forms names program) :
    parse text names = ⟨program, .ofNames names (some names.length), []⟩ := by
  -- the second pass starts from all the names, in the order in which the first has met them
  have hnames := Variables.names_ofNames hn (some names.length)
  exact parse_eq_of_forms (hnames.symm ▸ h)

/-- A text that is parsed without faults forms the program that it is parsed to. -/
theorem forms_of_isClean {names : List String} (h : (parse text names).isClean) :
    (Draft.ofScript text.toList).Forms (parse text names).vars.names
      (parse text names).program := by
  have hd : (assemble text.toList (.ofNames names (some names.length)) false).diagnostics = [] :=
    List.isEmpty_iff.1 h
  obtain ⟨program, hp, hf, -⟩ := Draft.exists_forms _ _ _ hd
  change (assemble text.toList (.ofNames names (some names.length)) false).program = _ at hp
  have hprogram : (parse text names).program = program := by simp [parse, hd, hp]
  exact hprogram ▸ hf

theorem vars_of_isClean {names : List String} (h : (parse text names).isClean) :
    (parse text names).vars = .ofNames names (some names.length) := by
  obtain ⟨program, -, -, hg⟩ := Draft.exists_forms _ _ _ (List.isEmpty_iff.1 h)
  exact hg.fixed rfl

theorem load_eq_of_isClean (h : (load text).isClean) :
    load text = parse text (harvest text).1 := by
  unfold load at h ⊢
  dsimp only at h ⊢
  split
  · rfl
  · next hd => exact absurd h (by rwa [if_neg hd])

/-- The two passes agree: if the first finds nothing wrong, the second keeps its names in order and
gives the program that it has built. So loading fails only if the first pass finds something wrong,
and leaves the script empty then. -/
theorem load_passes_agree (text : String) :
    ((harvest text).2 = [] →
      (parse text (harvest text).1).isClean ∧
      (parse text (harvest text).1).vars.names = (harvest text).1 ∧
      (assemble text.toList {} true).program = some (parse text (harvest text).1).program) ∧
    ((load text).isClean ↔ (harvest text).2 = []) ∧
    (¬ (load text).isClean →
      (load text).program = .nil ∧ (load text).vars.names = [] ∧ (load text).vars.values = []) := by
  have agree (h : (harvest text).2 = []) :
      ∃ program, (assemble text.toList {} true).program = some program ∧
        parse text (harvest text).1 =
          ⟨program, .ofNames (harvest text).1 (some (harvest text).1.length), []⟩ ∧
        (harvest text).1.Nodup := by
    obtain ⟨program, hp, hf, hn⟩ := forms_of_harvest h
    exact ⟨program, hp, parse_of_forms hn hf, hn⟩
  have clean (h : (harvest text).2 = []) : load text = parse text (harvest text).1 := by
    simp [load, h]
  have failed (h : (harvest text).2 ≠ []) : load text = .ofDiagnostics (harvest text).2 := by
    simp [load, h]
  refine ⟨fun h => ?_, ⟨fun hc => ?_, fun h => ?_⟩, fun hc => ?_⟩
  · obtain ⟨program, hp, heq, hn⟩ := agree h
    rw [heq]
    exact ⟨rfl, Variables.names_ofNames hn _, hp⟩
  · by_cases h : (harvest text).2 = []
    · exact h
    · simpa [failed h, isClean, ofDiagnostics] using hc
  · obtain ⟨program, -, heq, -⟩ := agree h
    rw [clean h, heq]
    rfl
  · by_cases h : (harvest text).2 = []
    · obtain ⟨program, -, heq, -⟩ := agree h
      exact absurd (by rw [clean h, heq]; rfl) hc
    · rw [failed h]
      exact ⟨rfl, rfl, rfl⟩

theorem load_passes_agree_loop :
    (harvest "while (b) { a = b; }").2 = [] ∧
    (parse "while (b) { a = b; }" (harvest "while (b) { a = b; }").1).isClean := by
  have h : (harvest "while (b) { a = b; }").2 = [] := List.isEmpty_iff.1 (by decide +kernel)
  exact ⟨h, ((load_passes_agree _).1 h).1⟩

end FormulaScript.Script
