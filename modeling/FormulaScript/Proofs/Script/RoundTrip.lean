import FormulaScript.Proofs.Program.Places
import FormulaScript.Proofs.Script.Assembly
import FormulaScript.Proofs.Script.Structure

/-!
# Round trip

A script in which the pieces of a block are laid is parsed to the program of the block.
-/

namespace FormulaScript.Script

open Text

variable {vars : Variables}

/-! ## Texts -/

theorem Suits.exists_forms (h : Suits vars text) :
    ∃ e, (Expr.parse text vars false).expr = some e ∧ Expr.Forms vars.names text e := by
  obtain ⟨e, he, hf, hg⟩ := Expr.exists_forms h.clean
  exact ⟨e, he, hg.fixed rfl ▸ hf⟩

/-! ## Braces -/

theorem Headed.enclosed (h : Headed word condition head) (hw : word ∈ keywords) :
    Enclosed head := by
  have hne (line : Nat) (text : List Char) (ht : text.length ≠ 1) : Enclosed [⟨line, text⟩] :=
    enclosed_singleton (fun he => ht (congrArg List.length he))
      (fun he => ht (congrArg List.length he)) line
  have hl : ∀ word ∈ keywords, word.toList.length ≠ 1 := by decide
  cases h with
  | joined line => exact hne line _ (by simp; omega)
  | split line line' => exact (hne line _ (hl word hw)).append (hne line' _ (by simp))

mutual

theorem Block.Cut.enclosed {block : Block} {us : List SourceUnit} (h : block.Cut us) :
    Enclosed us := by
  cases h with
  | done => exact enclosed_nil
  | @equation _ _ text line h =>
    have he : Enclosed [⟨line, squeeze false (trimLeft text) ++ [';']⟩] :=
      enclosed_singleton (append_semicolon_ne (by decide)) (append_semicolon_ne (by decide)) line
    exact he.append h.enclosed
  | branch line line' hh hy ht hr =>
    have hl := (hh.enclosed (by decide)).append
      ((hy.enclosed.braces line line').append (ht.enclosed.append hr.enclosed))
    simpa using hl
  | loop line line' hh hb hr =>
    have hl := (hh.enclosed (by decide)).append ((hb.enclosed.braces line line').append hr.enclosed)
    simpa using hl

theorem Tail.Cut.enclosed {tail : Tail} {us : List SourceUnit} (h : tail.Cut us) :
    Enclosed us := by
  cases h with
  | nothing => exact enclosed_nil
  | otherwise line line' line'' hb =>
    have he : Enclosed [⟨line, "else".toList⟩] := enclosed_singleton (by decide) (by decide) line
    have hl := he.append (hb.enclosed.braces line' line'')
    simpa using hl
  | elseIf line line' hh hy ht =>
    have hl := (hh.enclosed (by decide)).append
      ((hy.enclosed.braces line line').append ht.enclosed)
    simpa using hl

end

/-! ## Statements after an `if` -/

theorem Headed.follows (h : Headed word condition head) (hw : word = "if" ∨ word = "while")
    (rest : List SourceUnit) : Follows (head ++ rest) := by
  have hword (more : List Char) : word.toList ++ more ≠ closingBrace ∧
      word.toList ++ more ≠ "else".toList ∧ afterElseIf (word.toList ++ more) = none := by
    rcases hw with rfl | rfl
    · exact ⟨nofun, nofun, rfl⟩
    · exact ⟨nofun, nofun, rfl⟩
  cases h with
  | joined line hb =>
    rintro unit ⟨⟩
    rw [List.append_assoc]
    exact hword _
  | split line line' =>
    rintro unit ⟨⟩
    have hn := hword []
    rwa [List.append_nil] at hn

theorem Block.Cut.follows {block : Block} {us : List SourceUnit} (h : block.Cut us)
    (hs : block.Suits vars) : Follows us := by
  cases h with
  | done => nofun
  | @equation _ _ text line h =>
    rintro unit ⟨⟩
    obtain ⟨e, -, he⟩ := hs.1.exists_forms
    exact ⟨append_semicolon_ne (by decide), append_semicolon_ne (by decide),
      afterElseIf_statement hs.1.plain he⟩
  | branch line line' hh =>
    rw [List.append_assoc]
    exact hh.follows (.inl rfl) _
  | loop line line' hh =>
    rw [List.append_assoc]
    exact hh.follows (.inr rfl) _

/-! ## Programs -/

/-- The test of a suitable condition, as a tree and as it is read from the condition's unit. -/
theorem Suits.exists_tests (h : Suits vars condition) :
    ∃ test test', (Expr.parse (wrapped condition) vars false).expr = some test ∧
      Expr.Forms vars.names (wrapped (tidy condition)) test' ∧ test'.Moved test := by
  obtain ⟨e, -, he⟩ := h.exists_forms
  obtain ⟨test, test', ht, ht', hs⟩ := h.plain.forms_test he
  refine ⟨test, test', ?_, ht', hs⟩
  rw [ht.parse_eq]

theorem Suits.exists_header (h : Suits vars condition)
    (hh : Headed word (squeeze false condition) head) (hb : Enclosed body) :
    ∃ unit others more, head = unit :: others ∧
      Header word (squeeze false condition) body unit others more := by
  obtain ⟨e, -, he⟩ := h.exists_forms
  have hn : trim (squeeze false condition) ≠ [] :=
    ne_nil_of_lexemes h.plain.not_mem_nul he h.plain.lexemes_tidy
  exact hh.exists_header (h.plain.balanced_squeeze he) hn hb

mutual

theorem Block.Cut.exists_moved {block : Block} {us : List SourceUnit} (h : block.Cut us)
    (hs : block.Suits vars) :
    ∃ tree, block.program vars = some tree ∧ ∀ topLevel line, ∃ program,
      (draft topLevel line [] us).Forms vars.names program ∧ program.Moved tree := by
  cases h with
  | done =>
    refine ⟨.nil, rfl, fun topLevel line => ⟨.nil, ?_, .nil⟩⟩
    rw [draft_nil]
    exact .done
  | @equation rest after text line h =>
    obtain ⟨hs, hi, hw, hs'⟩ := hs
    obtain ⟨e, hp, he⟩ := hs.exists_forms
    obtain ⟨tree, ht, hr⟩ := h.exists_moved hs'
    obtain ⟨e', he', hes⟩ := hs.plain.forms_statement he
    have hn : tidy (trimLeft text) ≠ [] := ne_nil_of_lexemes hs.plain.not_mem_nul he
      (hs.plain.trimLeft.lexemes_tidy.trans (lexemes_trimLeft text))
    refine ⟨.equation e 0 tree, by simp [Block.program, hp, ht], fun topLevel start => ?_⟩
    obtain ⟨program, hf, hps⟩ := hr topLevel line
    refine ⟨.equation e' line program, ?_, .equation hes hps⟩
    rw [draft_equation rfl (afterKeyword_statement (by decide) hs.plain hi)
      (afterKeyword_statement (by decide) hs.plain hw) hn]
    exact .equation he' hf
  | branch line line' hh hy ht hr =>
    obtain ⟨hs, hsy, hst, hs'⟩ := hs
    obtain ⟨test, test', hp, htest, htests⟩ := hs.exists_tests
    obtain ⟨yes, hpy, hy'⟩ := hy.exists_moved hsy
    obtain ⟨no, hpn, hn⟩ := ht.exists_moved hst
    obtain ⟨tree, hpr, hr'⟩ := hr.exists_moved hs'
    obtain ⟨unit, others, more, rfl, hu⟩ := hs.exists_header hh hy.enclosed
    refine ⟨.branch test yes no 0 tree, by simp [Block.program, hp, hpy, hpn, hpr],
      fun topLevel start => ?_⟩
    -- the chain of the `if` ends where the rest of the block starts
    obtain ⟨chain, hchain, hrest, hno⟩ := hn _ line' (hr.follows hs')
    have hne : unit.text ≠ closingBrace := by
      rw [hu.text]
      nofun
    obtain ⟨lastLine, hd⟩ := draft_branch hne hu.afterKeyword (hu.branch ..) hchain topLevel start
    obtain ⟨program, hf, hps⟩ := hr' topLevel chain.cursor.line
    obtain ⟨yes', hfy, hys⟩ := hy' false unit.line
    obtain ⟨no', hfn, hns⟩ := hno lastLine
    refine ⟨.branch test' yes' no' unit.line program, ?_, .branch htests hys hns hps⟩
    rw [List.cons_append, List.cons_append, hd, hrest]
    exact .branch htest hfy hfn hf
  | @loop condition head _ inner _ after line line' hh hb hr =>
    obtain ⟨hs, hsb, hs'⟩ := hs
    obtain ⟨test, test', hp, htest, htests⟩ := hs.exists_tests
    obtain ⟨body, hpb, hb'⟩ := hb.exists_moved hsb
    obtain ⟨tree, hpr, hr'⟩ := hr.exists_moved hs'
    obtain ⟨unit, others, more, rfl, hu⟩ := hs.exists_header hh hb.enclosed
    refine ⟨.loop test body 0 tree, by simp [Block.program, hp, hpb, hpr], fun topLevel start => ?_⟩
    have hne : unit.text ≠ closingBrace := by
      rw [hu.text]
      nofun
    have hi : afterKeyword "if" unit.text = none := by
      rw [hu.text]
      rfl
    have hd := draft_loop hne hi hu.afterKeyword (hu.branch _ _ line line' after) topLevel start
    obtain ⟨program, hf, hps⟩ := hr' topLevel line'
    obtain ⟨body', hfb, hbs⟩ := hb' false unit.line
    refine ⟨.loop test' body' unit.line program, ?_, .loop htests hbs hps⟩
    rw [List.cons_append, List.cons_append, hd]
    exact .loop htest hfb hf

theorem Tail.Cut.exists_moved {tail : Tail} {us : List SourceUnit} (h : tail.Cut us)
    (hs : tail.Suits vars) :
    ∃ tree, tail.program vars = some tree ∧ ∀ rest line, Follows rest →
      ∃ chain, readChain ⟨us ++ rest, line⟩ = .ok chain ∧ chain.cursor.units = rest ∧
        ∀ lastLine, ∃ program,
          (chain.draft lastLine).Forms vars.names program ∧ program.Moved tree := by
  cases h with
  | nothing =>
    refine ⟨.nil, rfl, fun rest line hf => ⟨_, readChain_follows hf line, rfl, ?_⟩⟩
    exact fun lastLine => ⟨.nil, .done, .nil⟩
  | otherwise line line' line'' hb =>
    obtain ⟨tree, hp, hb'⟩ := hb.exists_moved hs
    refine ⟨tree, hp, fun rest start hf => ⟨⟨[], some _, ⟨rest, line''⟩⟩, ?_, rfl,
      fun lastLine => hb' ..⟩⟩
    have hc := readChain_else hb.enclosed hf line line' line'' start
    simpa using hc
  | @elseIf condition _ _ body _ _ line line' hh hy ht =>
    obtain ⟨hs, hsy, hst⟩ := hs
    obtain ⟨test, test', hp, htest, htests⟩ := hs.exists_tests
    obtain ⟨yes, hpy, hy'⟩ := hy.exists_moved hsy
    obtain ⟨no, hpn, hn⟩ := ht.exists_moved hst
    obtain ⟨unit, others, more, rfl, hu⟩ := hs.exists_header hh hy.enclosed
    refine ⟨.branch test yes no 0 .nil, by simp [Tail.program, hp, hpy, hpn],
      fun rest start hf => ?_⟩
    obtain ⟨chain, hchain, hrest, hno⟩ := hn rest line' hf
    have hc := readChain_elseIf hu.afterElseIf (hu.branch _ _ line line' _) hchain start
    let branch : Branch := ⟨trim (squeeze false condition), unit.line, body⟩
    refine ⟨{ chain with branches := branch :: chain.branches }, ?_, hrest, fun lastLine => ?_⟩
    · simpa using hc
    · obtain ⟨yes', hfy, hys⟩ := hy' false unit.line
      obtain ⟨no', hfn, hns⟩ := hno lastLine
      exact ⟨.branch test' yes' no' unit.line .nil, .branch htest hfy hfn .done,
        .branch htests hys hns .nil⟩

end

theorem Block.Cut.exists_forms {block : Block} {us : List SourceUnit} (h : block.Cut us)
    (hs : block.Suits vars) :
    ∃ tree, block.program vars = some tree ∧ ∀ topLevel line, ∃ program,
      (draft topLevel line [] us).Forms vars.names program ∧ program.same tree := by
  obtain ⟨tree, ht, hd⟩ := h.exists_moved hs
  refine ⟨tree, ht, fun topLevel line => ?_⟩
  obtain ⟨program, hf, hm⟩ := hd topLevel line
  exact ⟨program, hf, hm.same⟩

/-- A text in which a block is laid is parsed without diagnostics, to the block's program. -/
theorem parse_laid (block : Block) (names : List String) (text : String)
    (hs : block.Suits (.ofNames names (some names.length))) (hl : Laid block.pieces text.toList) :
    (parse text names).isClean ∧
      ∃ tree, block.program (.ofNames names (some names.length)) = some tree ∧
        (parse text names).program.same tree := by
  -- the units do not say where the gaps were, so the rest goes by induction on them
  obtain ⟨tree, ht, hd⟩ := (Block.cut_units hs hl).exists_forms hs
  obtain ⟨program, hf, hps⟩ := hd true 1
  have ha := hf.assemble_eq false
  have hp : parse text names = ⟨program, .ofNames names (some names.length), []⟩ := by
    simp [parse, assemble, Draft.ofScript, ha]
  rw [hp]
  exact ⟨rfl, tree, ht, hps⟩

theorem parse_laid_loop :
    let block : Block :=
      .loop "x<3".toList (.equation "x = x + 1".toList .done) <|
        .branch "x==3".toList .done
          (.elseIf "x>3".toList (.equation "x=0".toList .done) .nothing) .done
    let text := "while (x<3) { x = x + 1; } // rounds\nif(x==3){}else if (x>3) {x=0;}"
    block.Suits (.ofNames ["x"] (some 1)) ∧ Laid block.pieces text.toList ∧
      (parse text ["x"]).isClean ∧
      ∃ tree, block.program (.ofNames ["x"] (some 1)) = some tree ∧
        (parse text ["x"]).program.same tree := by
  intro block
  have hs : block.Suits (.ofNames ["x"] (some 1)) := by decide +kernel
  have blank {rest : List Char} (h : Gap rest) : Gap (' ' :: rest) := .blank (by decide) h
  have hl : Laid block.pieces _ :=
    .cons .nil <| .cons (blank .nil) <| .cons (blank .nil) <| .cons (blank .nil) <|
      .cons (blank .nil) <| .cons (blank (@Gap.line " rounds".toList [] (by decide) .nil)) <|
      .cons .nil <| .cons .nil <| .cons .nil <| .cons .nil <| .cons (blank .nil) <|
      .cons (blank .nil) <| .cons .nil <| .cons .nil <| .nil .nil
  exact ⟨hs, hl, parse_laid block ["x"] _ hs hl⟩

/-- A statement that starts like an `if` after a blank is taken for one, since units are trimmed. -/
theorem parse_blank_if :
    let text := " if(1,2,3)".toList
    Script.Suits (.ofNames [] (some 0)) text ∧ ¬ Opens "if" text ∧ ¬ Opens "while" text ∧
      Laid (Block.equation text .done).pieces (text ++ [';']) ∧
      ¬ (parse (String.ofList (text ++ [';'])) []).isClean := by
  intro text
  refine ⟨by decide +kernel, by decide +kernel, by decide +kernel, ?_, by decide +kernel⟩
  have hl : Laid (Block.equation text .done).pieces _ := .cons .nil (.nil .nil)
  simpa [Piece.text] using hl

end FormulaScript.Script
