import FormulaScript.Proofs.Expr.Completeness

/-!
# Recognition

The expression reader accepts exactly the grammar, and gives the tree that the grammar assigns.
-/

namespace FormulaScript.Expr

open Read

theorem exists_rest (tokens : List Token) : ∃ rest, tokens = Token.beforeFinish tokens ++ rest ∧
    ∀ t ∈ rest.head?, t.isFinish := by
  refine ⟨tokens.dropWhile (!·.isFinish), List.takeWhile_append_dropWhile.symm, fun t ht => ?_⟩
  have := List.head?_dropWhile_not (!·.isFinish) tokens
  rw [Option.mem_def.1 ht] at this
  simpa using this

/-- The tokens of an expression are read in full, and add no variable. -/
theorem ofTokens_complete {vars : Variables} {tokens : List Token} (autoAdd : Bool)
    (h : Derives vars.names .assignment (Token.beforeFinish tokens) e) :
    (ofTokens tokens vars autoAdd).1 = some e ∧
      (ofTokens tokens vars autoAdd).2.diagnostics = [] ∧
      (ofTokens tokens vars autoAdd).2.vars = vars := by
  obtain ⟨rest, hrest, hf⟩ := exists_rest tokens
  let reader : Reader := { rest := tokens, vars, autoAdd }
  have hr : reader.rest = Token.beforeFinish tokens ++ rest := hrest
  have hfinish : (reader.drop (Token.beforeFinish tokens).length).next.isFinish := by
    rw [Reader.next, Reader.drop_rest hr]
    cases rest with
    | nil => rfl
    | cons t rest => exact hf t rfl
  have hstart : reader.next.isFinish = false := by
    obtain ⟨t, us, hts, ht⟩ := h.starts
    rw [hts, List.cons_append] at hr
    rw [Reader.next_eq hr, ht.isFinish]
  have hrun := Derives.run_whole reader h hr hfinish
  unfold ofTokens
  dsimp only
  rw [if_neg (by simpa using hstart), hrun]
  exact ⟨rfl, rfl, rfl⟩

/-- On the tokens of a text without lexical faults and a fixed table of variables, the reader gives
an expression and reports nothing if and only if the tokens before the end derive from the grammar.
It then gives the one tree that they derive. -/
theorem ofTokens_iff_derives (text : List Char) (vars : Variables)
    (hs : (Token.scan text).2 = []) :
    let tokens := (Token.scan text).1
    let result := ofTokens tokens vars false
    ((result.1.isSome ∧ result.2.diagnostics = []) ↔
      ∃ e, Derives vars.names .assignment (Token.beforeFinish tokens) e) ∧
    ∀ e, result.1 = some e → result.2.diagnostics = [] →
      Derives vars.names .assignment (Token.beforeFinish tokens) e ∧
      ∀ e', Derives vars.names .assignment (Token.beforeFinish tokens) e' → e' = e := by
  intro tokens result
  have sound {e : Expr} (he : result.1 = some e) :
      Derives vars.names .assignment (Token.beforeFinish tokens) e := by
    have ht := Token.regular_scan hs
    have hv : result.2.vars = vars := (ofTokens_sound vars false ht).1.fixed rfl
    exact hv ▸ (derives_of_ofTokens ht he).2
  refine ⟨⟨fun h => ?_, fun ⟨e, he⟩ => ?_⟩, fun e he _ => ⟨sound he, fun e' he' => ?_⟩⟩
  · obtain ⟨e, he⟩ := Option.isSome_iff_exists.1 h.1
    exact ⟨e, sound he⟩
  · obtain ⟨he, hd, -⟩ := ofTokens_complete false he
    exact ⟨Option.isSome_of_mem he, hd⟩
  · exact he'.unique (sound he)

theorem derives_assigned_power : (Token.scan "a=-b^a".toList).2 = [] ∧
    ∃ e, Derives ["a", "b"] .assignment (Token.beforeFinish (Token.scan "a=-b^a".toList).1) e := by
  have hs : (Token.scan "a=-b^a".toList).2 = [] := by decide +kernel
  have h := ofTokens_iff_derives "a=-b^a".toList { names := ["a", "b"] } hs
  exact ⟨hs, h.1.1 ⟨by decide +kernel, List.isEmpty_iff.1 (by decide +kernel)⟩⟩

/-! ## Texts -/

/-- The text has no lexical faults, and its tokens form an expression. -/
structure Forms (names : List String) (text : List Char) (e : Expr) : Prop where
  faultless : (Token.scan text).2 = []
  derives : Derives names .assignment (Token.beforeFinish (Token.scan text).1) e

theorem Forms.mono (h : Forms names text e) (hn : names <+: names') : Forms names' text e :=
  ⟨h.faultless, h.derives.mono hn⟩

/-- A text that forms an expression is parsed to it, and adds no variable. -/
theorem Forms.parse_eq {vars : Variables} (h : Forms vars.names text e) (autoAdd : Bool) :
    parse text vars autoAdd = ⟨some e, [], vars⟩ := by
  obtain ⟨he, hd, hv⟩ := ofTokens_complete autoAdd h.derives
  simp [parse, h.faultless, he, hd, hv]

/-- A text with which nothing is wrong forms an expression over the variables that it leaves. -/
theorem exists_forms {vars : Variables} {autoAdd : Bool}
    (h : (parse text vars autoAdd).diagnostics = []) :
    ∃ e, (parse text vars autoAdd).expr = some e ∧
      Forms (parse text vars autoAdd).vars.names text e ∧
      Variables.Grows autoAdd vars (parse text vars autoAdd).vars := by
  obtain ⟨e, he, hs, hd, hv, hf⟩ := parse_sound h
  exact ⟨e, he, ⟨hs, hd⟩, hv, hf⟩

end FormulaScript.Expr
