import FormulaScript.Proofs.Expr.Steps
import FormulaScript.Proofs.Variables

/-!
# Names added while reading

Reading that adds unknown names gathers the names of the variables among the tokens that it takes,
in their order, however it ends. A name for which there is no room is reported at every place.
-/

namespace FormulaScript

/-- Whether the token is a name that stands for a variable. -/
def Token.isVariable (t : Token) : Bool :=
  match t.kind with
  | .name => t.text != "PI"
  | _ => false

theorem Token.isVariable_of_kind {t : Token} (h : t.kind = .name) :
    t.isVariable = (t.text != "PI") := by
  rw [isVariable, h]

theorem Token.isVariable_eq_false {t : Token} (h : t.kind ≠ .name) : t.isVariable = false := by
  unfold isVariable
  split
  · exact absurd ‹_› h
  · rfl

/-- What is reported of a name for which there is no room. -/
def Token.capacityExceeded (t : Token) : Diagnostic :=
  ⟨.capacityExceeded t.text, none, some t.position⟩

/-- Whether a name has been reported for which there is no room. -/
def Diagnostic.isRefusal (diagnostic : Diagnostic) : Bool :=
  diagnostic.problem.code == "CAPACITY_EXCEEDED"

/-- The names of the variables among tokens, as often as they occur. -/
def variableNames (ts : List Token) : List String := (ts.filter (·.isVariable)).map (·.text)

/-- What is reported of the variables among tokens that have no slot. -/
def refusals (vars : Variables) (ts : List Token) : List Diagnostic :=
  ((ts.filter (·.isVariable)).filter (·.text ∉ vars.names)).map (·.capacityExceeded)

theorem variableNames_append (ts us : List Token) :
    variableNames (ts ++ us) = variableNames ts ++ variableNames us := by
  simp [variableNames]

theorem refusals_append (vars : Variables) (ts us : List Token) :
    refusals vars (ts ++ us) = refusals vars ts ++ refusals vars us := by
  simp [refusals]

/-- The names that have found no room find none later. -/
theorem refusals_gather (vars : Variables) (ts : List Token) (names : List String) :
    refusals ((vars.gather (variableNames ts)).gather names) ts =
      refusals (vars.gather (variableNames ts)) ts := by
  by_cases hf : (vars.gather (variableNames ts)).isFull
  · rw [Variables.gather_of_isFull hf]
  · have hall (t : Token) (ht : t ∈ ts.filter (·.isVariable)) :
        t.text ∈ (vars.gather (variableNames ts)).names :=
      Decidable.byContradiction fun hn =>
        hf (Variables.isFull_of_notMem_gather (List.mem_map_of_mem ht) hn)
    have hlater := (Variables.extends_gather (vars.gather (variableNames ts)) names).isPrefix
    unfold refusals
    refine congrArg _ (List.filter_congr fun t ht => ?_)
    simp [hall t ht, hlater.subset (hall t ht)]

namespace Reader

/-- The tokens have been taken. If names may be added, those of the variables among them have been
gathered and the ones without a slot reported; otherwise the variables are the same. -/
structure Gathers (ts : List Token) (reader left : Reader) : Prop where
  rest : reader.rest = ts ++ left.rest
  position : left.position = reader.position + ts.length
  finish : ∀ t ∈ ts, t.isFinish = false
  autoAdd : left.autoAdd = reader.autoAdd
  fixed : reader.autoAdd = false → left.vars = reader.vars
  vars : reader.autoAdd → left.vars = reader.vars.gather (variableNames ts)
  refused : reader.autoAdd → left.diagnostics.filter (·.isRefusal) =
    reader.diagnostics.filter (·.isRefusal) ++ refusals left.vars ts

variable {reader left last : Reader} {ts us : List Token}

theorem Gathers.refl (reader : Reader) : Gathers [] reader reader :=
  ⟨rfl, rfl, List.forall_mem_nil _, rfl, fun _ => rfl, fun _ => rfl,
    fun _ => (List.append_nil _).symm⟩

theorem Gathers.trans (h : Gathers ts reader left) (h' : Gathers us left last) :
    Gathers (ts ++ us) reader last where
  rest := by rw [h.rest, h'.rest, List.append_assoc]
  position := by rw [h'.position, h.position, List.length_append, Nat.add_assoc]
  finish := List.forall_mem_append.2 ⟨h.finish, h'.finish⟩
  autoAdd := h'.autoAdd.trans h.autoAdd
  fixed hf := (h'.fixed (h.autoAdd.trans hf)).trans (h.fixed hf)
  vars ha := by
    rw [h'.vars (h.autoAdd.trans ha), h.vars ha, variableNames_append, Variables.gather_append]
  refused ha := by
    have ha' : left.autoAdd := h.autoAdd.trans ha
    have hearlier : refusals last.vars ts = refusals left.vars ts := by
      rw [h'.vars ha', h.vars ha, refusals_gather]
    rw [h'.refused ha', h.refused ha, refusals_append, hearlier, List.append_assoc]

theorem Gathers.supplied (h : Gathers ts reader left) (hs : reader.Supplied) : left.Supplied :=
  hs.of_rest h.rest h.finish

theorem Gathers.skip (hs : reader.Supplied) (hf : reader.next.kind ≠ .finish)
    (hv : reader.next.isVariable = false) : Gathers [reader.next] reader reader.skip := by
  refine ⟨hs.rest_eq, rfl, List.forall_mem_singleton.2 (Token.isFinish_eq_false hf), rfl,
    fun _ => rfl, fun _ => ?_, fun _ => ?_⟩
  · simp [variableNames, hv, Variables.gather, Reader.skip]
  · simp [refusals, hv, Reader.skip]

theorem Gathers.report (reader : Reader) {problem : Problem}
    (h : (problem.code == "CAPACITY_EXCEEDED") = false) (t : Token) :
    Gathers [] reader (reader.report problem t) := by
  have hr : Diagnostic.isRefusal ⟨problem, none, some t.position⟩ = false := h
  refine ⟨rfl, rfl, List.forall_mem_nil _, rfl, fun _ => rfl, fun _ => rfl, fun _ => ?_⟩
  simp [Reader.report, hr, refusals]

end Reader

namespace Expr

open Read Reader

/-- A variable is added unless it has a slot, and reported if there is no room for it. -/
theorem gathers_resolve {reader : Reader} (hs : reader.Supplied) (hk : reader.next.kind = .name) :
    (resolve reader.next).Ends reader.skip (fun _ left => Gathers [reader.next] reader left)
      fun _ => False := by
  have hf : reader.next.kind ≠ .finish := by simp [hk]
  cases hc : constants.lookup reader.next.text with
  | some value =>
    simp only [Expr.resolve, hc, ends_pure]
    exact .skip hs hf (by simp [Token.isVariable_of_kind hk, eq_pi_of_lookup hc])
  | none =>
    have hv : reader.next.isVariable := by
      simp [Token.isVariable_of_kind hk, ne_pi_of_lookup hc]
    -- what is left to show when the name is taken, whatever becomes of it
    have taken {left : Reader} (hr : left.rest = reader.skip.rest)
        (hp : left.position = reader.skip.position) (ha : left.autoAdd = reader.autoAdd)
        (hfixed : reader.autoAdd = false → left.vars = reader.vars)
        (hvars : reader.autoAdd → left.vars = (reader.vars.add reader.next.text).2)
        (hd : reader.autoAdd → left.diagnostics.filter (·.isRefusal) =
          reader.diagnostics.filter (·.isRefusal) ++
            if reader.next.text ∈ left.vars.names then [] else [reader.next.capacityExceeded]) :
        Gathers [reader.next] reader left := by
      refine ⟨hr ▸ hs.rest_eq, hp, List.forall_mem_singleton.2 (Token.isFinish_eq_false hf), ha,
        hfixed, fun h => ?_, fun h => ?_⟩
      · simpa [variableNames, hv, Variables.gather] using hvars h
      · rw [hd h]
        split <;> simp_all [refusals]
    simp only [Expr.resolve, hc, ends_bind, ends_get]
    cases hi : reader.skip.vars.indexOf? reader.next.text with
    | some index =>
      have hm : reader.next.text ∈ reader.vars.names := by
        obtain ⟨hlt, hname, -⟩ := List.idxOf?_eq_some_iff.1 hi
        exact hname ▸ List.getElem_mem hlt
      exact taken rfl rfl rfl (fun _ => rfl) (fun _ => (Variables.add_of_mem hm).symm)
        fun _ => by simp [Reader.skip, hm]
    | none =>
      have hm : reader.next.text ∉ reader.vars.names := List.idxOf?_eq_none_iff.1 hi
      dsimp only
      split
      · next ha =>
        have hadd : reader.vars.add reader.next.text = _ := Variables.add_of_notMem hm
        have hfixed {vars : Variables} (h : reader.autoAdd = false) : vars = reader.vars :=
          absurd ha (by simp [Reader.skip, h])
        rw [show reader.skip.vars = reader.vars from rfl, hadd]
        by_cases hfull : reader.vars.isFull
        · simp only [if_pos hfull, ends_bind, ends_set, ends_report, ends_pure]
          refine taken rfl rfl rfl hfixed (fun _ => (Variables.add_of_isFull hfull _).symm)
            fun _ => ?_
          simp [Reader.report, Reader.skip, hm, Diagnostic.isRefusal, Problem.code,
            Token.capacityExceeded]
        · simp only [if_neg hfull, ends_bind, ends_set, ends_pure]
          refine taken rfl rfl rfl hfixed (fun _ => by rw [hadd, if_neg hfull]) fun _ => ?_
          simp [Reader.skip, Variables.append]
      · next ha =>
        simp only [ends_bind, ends_report, ends_pure]
        exact taken rfl rfl rfl (fun _ => rfl) (fun h => absurd h ha) fun h => absurd h ha

theorem steps_gathers : Steps fun reader left => ∃ ts, Gathers ts reader left where
  refl reader := ⟨[], .refl reader⟩
  trans := fun ⟨ts, h⟩ ⟨us, h'⟩ => ⟨ts ++ us, h.trans h'⟩
  supplied := fun ⟨_, h⟩ hs => h.supplied hs
  skip hs hf hn := ⟨_, .skip hs hf (Token.isVariable_eq_false hn)⟩
  resolve hs hk := (gathers_resolve hs hk).mono (fun _ _ h => ⟨_, h⟩) fun _ h => h.elim
  unknown {reader} hs hk _ :=
    have htaken := Gathers.skip hs (by simp [hk]) (Token.isVariable_eq_false (by simp [hk]))
    ⟨_, htaken.trans (.report reader.skip rfl reader.next)⟩
  report t reader h :=
    ⟨[], .report reader (Bool.or_eq_false_iff.1 (Bool.or_eq_false_iff.1 h).1).2 t⟩

/-! ## Texts -/

/-- The tokens of a text have two kinds of problems. -/
theorem problem_of_mem_scan {text : List Char} {d : Diagnostic} (h : d ∈ (Token.scan text).2) :
    d.problem = .unbalancedQuotes ∨ ∃ number, d.problem = .invalidNumber number := by
  refine Token.scanFrom_induction (motive := fun _ scanned => ∀ d ∈ scanned.2,
    d.problem = .unbalancedQuotes ∨ ∃ number, d.problem = .invalidNumber number) ?_ ?_ 0 {}
    (Token.beforeNul text) d h
  · exact fun _ _ _ _ => List.forall_mem_nil _
  · intro _ first rest _ _ _ _ ih
    refine List.forall_mem_append.2 ⟨?_, ih⟩
    unfold Token.Lexeme.diagnostics
    refine Token.Lexeme.read_cases first rest ?_ ?_ ?_ ?_ ?_ ?_ ?_ ?_ <;> simp

theorem isRefusal_of_mem_scan {text : List Char} {d : Diagnostic} (h : d ∈ (Token.scan text).2) :
    d.isRefusal = false := by
  rcases problem_of_mem_scan h with hp | ⟨number, hp⟩ <;>
    simp [Diagnostic.isRefusal, hp, Problem.code]

/-- The names of the variables in front of the place where reading ends are gathered. -/
theorem gathers_ofTokens (text : List Char) (vars : Variables) (autoAdd : Bool) :
    let tokens := (Token.scan text).1
    let left := (ofTokens tokens vars autoAdd).2
    Gathers (tokens.take left.position) { rest := tokens, vars, autoAdd } left := by
  intro tokens left
  obtain ⟨ts, h⟩ := steps_gathers.ofTokens (supplied_scan text vars autoAdd)
  have hp : left.position = ts.length := by simpa using h.position
  have htaken : tokens.take left.position = ts := by
    rw [hp]
    exact (List.prefix_iff_eq_take.1 ⟨_, h.rest.symm⟩).symm
  rwa [htaken]

/-- A text is parsed over a fixed list of variables, which stays as it is. -/
theorem vars_parse (text : List Char) (vars : Variables) : (parse text vars false).vars = vars :=
  (gathers_ofTokens text vars false).fixed rfl

/-- Of a text whose names are added each that has found no room is reported, wherever it stands in
front of the place where reading ends. -/
theorem gathers_parse (text : List Char) (vars : Variables) :
    let tokens := (Token.scan text).1
    let taken := tokens.take (ofTokens tokens vars true).2.position
    (parse text vars true).vars = vars.gather (variableNames taken) ∧
      (parse text vars true).diagnostics.filter (·.isRefusal) =
        refusals (parse text vars true).vars taken := by
  intro tokens taken
  have h := gathers_ofTokens text vars true
  have hscan : (Token.scan text).2.filter (·.isRefusal) = [] :=
    List.filter_eq_nil_iff.2 fun d hd => by simp [isRefusal_of_mem_scan hd]
  have hdiagnostics : (parse text vars true).diagnostics =
      (Token.scan text).2 ++ (ofTokens (Token.scan text).1 vars true).2.diagnostics := rfl
  refine ⟨h.vars rfl, ?_⟩
  rw [hdiagnostics, List.filter_append, hscan, h.refused rfl]
  rfl

/-- Reading that gives an expression has come to the end of the tokens. -/
theorem isFinish_of_ofTokens {tokens : List Token} {vars : Variables} {autoAdd : Bool}
    (h : (ofTokens tokens vars autoAdd).1 = some e) :
    (ofTokens tokens vars autoAdd).2.next.isFinish := by
  have hw (reader : Reader) :
      whole.Ends reader (fun _ left => left.next.isFinish) fun _ => True := by
    have hany {α : Type} (step : Read α) (reader : Reader) :
        step.Ends reader (fun _ _ => True) fun _ => True := by
      unfold Ends
      split <;> trivial
    simp only [Expr.whole]
    rw [ends_bind, ends_get, ends_bind]
    refine (hany _ reader).mono (fun e left _ => ?_) fun _ h => h
    rw [ends_bind, ends_peek]
    split
    · next hf => exact hf
    · split <;> trivial
  unfold ofTokens at h ⊢
  dsimp only at h ⊢
  split at h
  · cases h
  · next hs =>
    rw [if_neg hs]
    split at h
    · next hrun => exact (hw _).of_ok hrun
    · cases h

/-- A text with which nothing is wrong adds the names of all its variables. -/
theorem vars_parse_of_faultless {text : List Char} {vars : Variables}
    (h : (parse text vars true).diagnostics = []) :
    (parse text vars true).vars =
      vars.gather (variableNames (Token.beforeFinish (Token.scan text).1)) := by
  let left := (ofTokens (Token.scan text).1 vars true).2
  have hg := gathers_ofTokens text vars true
  have hs : left.Supplied := hg.supplied (supplied_scan text vars true)
  have hf : left.next.isFinish := by
    obtain ⟨hscan, hread⟩ := List.append_eq_nil_iff.1 h
    have hsound := (ofTokens_sound vars true (Token.regular_scan hscan)).2
    cases ho : (ofTokens (Token.scan text).1 vars true).1 with
    | some e => exact isFinish_of_ofTokens ho
    | none =>
      rw [← Prod.eta (ofTokens (Token.scan text).1 vars true), ho] at hsound
      exact absurd hread hsound
  have hall : Token.beforeFinish (Token.scan text).1 = (Token.scan text).1.take left.position :=
    hs.beforeFinish_eq hg.rest hg.finish hf
  rw [hall]
  exact hg.vars rfl

end Expr

end FormulaScript
