import FormulaScript.Proofs.Expr.Recognition
import FormulaScript.Proofs.Store

/-!
# What is assigned to

The targets of an assignable expression are the variables on both sides of its assignments. Storing
a value through the expression puts it into their slots and does nothing else. That it never fails
rests on the left operands: `isAssignable` does not look at them, but the grammar asks that they are
assignable as well.
-/

namespace FormulaScript

/-- The values with one value put into each of some slots. -/
def fill (indices : List Nat) (value : Float) (values : List Float) : List Float :=
  values.mapIdx fun index old => if index ∈ indices then value else old

theorem length_fill (indices : List Nat) (value : Float) (values : List Float) :
    (fill indices value values).length = values.length :=
  List.length_mapIdx

theorem fill_append (indices indices' : List Nat) (value : Float) (values : List Float) :
    fill (indices ++ indices') value values = fill indices value (fill indices' value values) := by
  refine List.ext_getElem (by simp [length_fill]) fun index _ _ => ?_
  by_cases h : index ∈ indices <;> simp [fill, h]

theorem fill_singleton (index : Nat) (value : Float) (values : List Float) :
    fill [index] value values = values.set index value := by
  refine List.ext_getElem (by simp [length_fill]) fun other _ _ => ?_
  simp [fill, List.getElem_set, eq_comm]

namespace Expr

/-- The variables that an assignable expression assigns to, each with its slot. -/
def targets : Expr → List (String × Nat)
  | slot name index _ => [(name, index)]
  | assign target value _ => target.targets ++ value.targets
  | update _ target value _ => target.targets ++ value.targets
  | increment _ target _ => target.targets
  | _ => []

/-- The slots that an assignable expression assigns to. -/
def targetSlots (e : Expr) : List Nat := e.targets.map (·.2)

/-- An expression, its operands, theirs, and so on. -/
inductive Part (e : Expr) : Expr → Prop
  | self : Part e e
  | operand : Part e part → operand ∈ part.children → Part e operand

variable {names : List String} {n : Nat} {e part operand : Expr}

theorem Safe.of_mem_children (h : Safe n e) (hc : operand ∈ e.children) : Safe n operand := by
  cases h with
  | literal | slot | string => cases hc
  | unary h | increment h => exact List.mem_singleton.1 hc ▸ h
  | print h => exact h operand hc
  | binary _ h h' | assign h _ h' | update h _ h' =>
    rcases List.mem_pair.1 hc with rfl | rfl
    · exact h
    · exact h'
  | conditional h h' h'' =>
    rcases List.mem_cons.1 hc with rfl | hc
    · exact h
    · rcases List.mem_pair.1 hc with rfl | rfl
      · exact h'
      · exact h''

theorem Named.of_mem_children (h : Named names e) (hc : operand ∈ e.children) :
    Named names operand := by
  cases h with
  | literal | slot | string => cases hc
  | unary h | increment h => exact List.mem_singleton.1 hc ▸ h
  | print h => exact h operand hc
  | binary h h' | assign h h' | update h h' =>
    rcases List.mem_pair.1 hc with rfl | rfl
    · exact h
    · exact h'
  | conditional h h' h'' =>
    rcases List.mem_cons.1 hc with rfl | hc
    · exact h
    · rcases List.mem_pair.1 hc with rfl | rfl
      · exact h'
      · exact h''

theorem Part.safe (hp : Part e part) (h : Safe n e) : Safe n part := by
  induction hp with
  | self => exact h
  | operand _ hc ih => exact ih.of_mem_children hc

theorem Part.named (hp : Part e part) (h : Named names e) : Named names part := by
  induction hp with
  | self => exact h
  | operand _ hc ih => exact ih.of_mem_children hc

/-- Every target is the variable that its slot belongs to. -/
theorem Named.getElem?_of_mem_targets (h : Named names e) :
    ∀ target ∈ e.targets, names[target.2]? = some target.1 := by
  induction h with
  | slot hn => exact List.forall_mem_singleton.2 hn
  | assign _ _ iht ihv | update _ _ iht ihv => exact List.forall_mem_append.2 ⟨iht, ihv⟩
  | increment _ ih => exact ih
  | literal | string | unary | binary | print | conditional => exact List.forall_mem_nil _

/-- On `n` slots at least, a value stored through the expression is put into the slots of its
targets. Nothing else happens. -/
def FillsTargets (n : Nat) (e : Expr) : Prop :=
  ∀ (value : Float) (context : Context), n ≤ context.values.length →
    (e.assignValue value).run context =
      .ok value { context with values := fill e.targetSlots value context.values }

theorem fillsTargets_slot (hi : index < n) (name : String) (l : Location) :
    FillsTargets n (.slot name index l) := by
  intro value context hl
  have hlt : index < context.values.length := Nat.lt_of_lt_of_le hi hl
  rw [assignValue, Evaluation.run_store, if_pos hlt, ← fill_singleton]
  rfl

theorem FillsTargets.assign (ht : FillsTargets n target) (hs : FillsTargets n source)
    (l : Location) : FillsTargets n (.assign target source l) := by
  intro value context hl
  rw [assignValue, EStateM.run_bind, hs value context hl]
  dsimp only
  rw [ht value _ (by rwa [length_fill]), ← fill_append, targetSlots, targetSlots, ← List.map_append]
  rfl

/-- The right operand is asked for by `isAssignable`, the left one by `Safe`. -/
theorem Safe.fillsTargets (h : Safe n e) (ha : e.isAssignable) : FillsTargets n e := by
  induction h with
  | slot hi => exact fillsTargets_slot hi _ _
  | assign _ ht _ iht ihs | update _ ht _ iht ihs => exact (iht ht).assign (ihs ha) {}
  | increment _ ht ih => exact ih ht
  | literal | string | unary | binary | print | conditional => cases ha

/-! ## Chains of assignments -/

/-- Variables with an equals sign after each of them, and their slots. -/
inductive Chained (names : List String) : List Token → List Nat → Prop
  | nil : Chained names [] []
  | snoc {t equals : Token} : Chained names ts slots → t.kind = .name → t.text ≠ "PI" →
      names.idxOf? t.text = some index → equals.isDelimiter "=" →
      Chained names (ts ++ [t, equals]) (slots ++ [index])

/-- The equals signs group to the left, so the chain is one assignment to all of its variables. -/
theorem Chained.derives (h : Chained names ts slots) (hne : ts ≠ [])
    (hs : Derives names .disjunction us source) :
    ∃ target l, Derives names .assignment (ts ++ us) (.assign target source l) ∧
      target.isAssignable ∧ target.targetSlots = slots := by
  induction h generalizing us source with
  | nil => exact absurd rfl hne
  | @snoc ts slots index t equals h hk ht hi heq ih =>
    have hslot : Derives names .operand [t] (.slot t.text index t.location) := .slot hk ht hi
    cases h with
    | nil => exact ⟨_, _, .assign hslot.of_operand rfl heq hs, rfl, rfl⟩
    | snoc =>
      obtain ⟨target, l, hd, -, hslots⟩ := ih (by simp) hslot.disjunction_of_operand
      have hassign := Derives.assign hd rfl heq hs
      rw [List.append_assoc] at hassign ⊢
      refine ⟨_, _, hassign, rfl, ?_⟩
      rw [← hslots]
      exact List.map_append

/-- The chain evaluates its last operand, once, and leaves the value in all of its slots. -/
theorem Chained.exists_assign (h : Chained names ts slots) (hne : ts ≠ [])
    (hs : Derives names .disjunction us source) :
    ∃ e, Derives names .assignment (ts ++ us) e ∧
      ∀ (tolerance : Int) (context : Context), names.length ≤ context.values.length →
        ∃ value left, (source.evaluate tolerance).run context = .ok value left ∧
          (e.evaluate tolerance).run context =
            .ok value { left with values := fill slots value left.values } := by
  obtain ⟨target, l, hd, ha, rfl⟩ := h.derives hne hs
  have hsafe : Safe names.length target := by
    cases hd.safe with
    | assign h => exact h
  refine ⟨_, hd, fun tolerance context hl => ?_⟩
  obtain ⟨value, left, hr, hleft⟩ := ((hs.safe.mono hl).keeps_evaluate tolerance).exists_ok rfl
  refine ⟨value, left, hr, ?_⟩
  rw [evaluate, EStateM.run_bind, hr]
  exact hsafe.fillsTargets ha value left (hleft ▸ hl)

/-! ## Texts -/

/-- A text without faults that derives a tree over the variables that there are has a tree. -/
theorem isSome_parse_of_derives {text : List Char} {vars : Variables} {autoAdd : Bool}
    (hf : (Token.scan text).2 = []) (hv : autoAdd → (parse text vars autoAdd).vars = vars)
    (hd : Derives (parse text vars autoAdd).vars.names .assignment
      (Token.beforeFinish (Token.scan text).1) e) :
    (parse text vars autoAdd).expr.isSome := by
  have hvars : (parse text vars autoAdd).vars = vars := by
    cases autoAdd with
    | true => exact hv rfl
    | false => exact (ofTokens_sound vars false (Token.regular_scan hf)).1.fixed rfl
  rw [hvars] at hd
  have hforms : Forms vars.names text e := ⟨hf, hd⟩
  simp [hforms.parse_eq autoAdd]

/-- Through every assignable part of a parsed expression a value is stored into the slots of the
targets of that part, which are variables of the text, and nothing else happens. So a chain of
assignments evaluates its last operand, once, and leaves the value in the slots of all of its
variables. It has a tree if no variable had to be added for it. -/
theorem targets_of_parse (text : List Char) (vars : Variables) (autoAdd : Bool) :
    let parsed := parse text vars autoAdd
    let names := parsed.vars.names
    (∀ e ∈ parsed.expr, ∀ part, Part e part → part.isAssignable →
      (∀ target ∈ part.targets, names[target.2]? = some target.1) ∧
      part.FillsTargets names.length) ∧
    ∀ ts us slots source, Token.beforeFinish (Token.scan text).1 = ts ++ us → ts ≠ [] →
      Chained names ts slots → Derives names .disjunction us source →
      ((Token.scan text).2 = [] → (autoAdd → parsed.vars = vars) → parsed.expr.isSome) ∧
      ∀ e ∈ parsed.expr, ∀ (tolerance : Int) (context : Context),
        names.length ≤ context.values.length →
        ∃ value left, (source.evaluate tolerance).run context = .ok value left ∧
          (e.evaluate tolerance).run context =
            .ok value { left with values := fill slots value left.values } := by
  intro parsed names
  have hforms {e : Expr} (he : e ∈ parsed.expr) :
      Derives names .assignment (Token.beforeFinish (Token.scan text).1) e := by
    obtain ⟨e', he', hf, -⟩ := exists_forms (isSome_parse_iff.1 (Option.isSome_of_mem he))
    cases he.symm.trans he'
    exact hf.derives
  constructor
  · intro e he part hp ha
    exact ⟨(hp.named (hforms he).named).getElem?_of_mem_targets,
      (hp.safe (hforms he).safe).fillsTargets ha⟩
  · intro ts us slots source hts hne hchain hs
    obtain ⟨assigned, hd, heval⟩ := hchain.exists_assign hne hs
    rw [← hts] at hd
    refine ⟨fun hf hv => isSome_parse_of_derives hf hv hd, fun e he => ?_⟩
    obtain rfl := hd.unique (hforms he)
    exact heval

/-- In this text the third variable is assigned to the other two. -/
theorem exists_chained : ∃ ts us l,
    Token.beforeFinish (Token.scan "a = b = c".toList).1 = ts ++ us ∧ ts ≠ [] ∧
      Chained ["a", "b", "c"] ts [0, 1] ∧
      Derives ["a", "b", "c"] .disjunction us (.slot "c" 2 l) := by
  have hname {t : Token} (h : t.kind.code = "VARIABLE") : t.kind = .name := by
    cases hk : t.kind <;> simp [hk, Token.Kind.code] at h ⊢
  have htokens : (Token.beforeFinish (Token.scan "a = b = c".toList).1).map
      (fun t => (t.kind.code, t.text, t.isDelimiter "=")) =
      [("VARIABLE", "a", false), ("DELIMITER", "=", true), ("VARIABLE", "b", false),
        ("DELIMITER", "=", true), ("VARIABLE", "c", false)] := by decide +kernel
  simp only [List.map_eq_cons_iff, List.map_eq_nil_iff, Prod.mk.injEq] at htokens
  obtain ⟨a, _, hts, ⟨hak, ha, -⟩, first, _, rfl, ⟨-, -, hfirst⟩, b, _, rfl, ⟨hbk, hb, -⟩,
    second, _, rfl, ⟨-, -, hsecond⟩, c, _, rfl, ⟨hck, hc, -⟩, rfl⟩ := htokens
  refine ⟨[a, first, b, second], [c], c.location, hts, by simp, ?_, ?_⟩
  · have hfront : Chained ["a", "b", "c"] [a, first] [0] :=
      Chained.nil.snoc (hname hak) (by simp [ha]) (by rw [ha]; rfl) hfirst
    exact hfront.snoc (hname hbk) (by simp [hb]) (by rw [hb]; rfl) hsecond
  · rw [← hc]
    exact Derives.disjunction_of_operand (.slot (hname hck) (by simp [hc]) (by rw [hc]; rfl))

/-- A value is stored into all variables of the chain, and its evaluation copies the last one into
the others. -/
theorem targets_of_parse_chain :
    ∃ e ∈ (parse "a = b = c".toList { names := ["a", "b", "c"] } false).expr,
      ∀ (tolerance : Int) (shared : Shared) (x y z value : Float),
        (e.assignValue value).run ⟨shared, [x, y, z]⟩ =
          .ok value ⟨shared, [value, value, value]⟩ ∧
        (e.evaluate tolerance).run ⟨shared, [x, y, z]⟩ = .ok z ⟨shared, [z, z, z]⟩ := by
  let parsed := parse "a = b = c".toList { names := ["a", "b", "c"] } false
  obtain ⟨hparts, hchains⟩ :=
    targets_of_parse "a = b = c".toList { names := ["a", "b", "c"] } false
  have hnames : parsed.vars.names = ["a", "b", "c"] := by decide +kernel
  have hslots : parsed.expr.map (fun e => (e.isAssignable, e.targetSlots)) =
      some (true, [0, 1, 2]) := by decide +kernel
  rw [hnames] at hparts hchains
  obtain ⟨ts, us, _, ht, hne, hchain, hsource⟩ := exists_chained
  obtain ⟨hsome, heval⟩ := hchains ts us _ _ ht hne hchain hsource
  obtain ⟨e, he⟩ := Option.isSome_iff_exists.1 (hsome (by decide +kernel) nofun)
  obtain ⟨hassignable, hslots⟩ := Prod.mk.inj (Option.some.inj (he ▸ hslots))
  refine ⟨e, he, fun tolerance shared x y z value => ⟨?_, ?_⟩⟩
  · have h := (hparts e he e .self hassignable).2 value ⟨shared, [x, y, z]⟩ (by simp)
    rw [hslots] at h
    exact h
  · obtain ⟨value, left, hr, h⟩ := heval e he tolerance ⟨shared, [x, y, z]⟩ (by simp)
    cases hr
    exact h

end Expr

end FormulaScript
