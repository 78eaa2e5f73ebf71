import FormulaScript.Proofs.Expr.Faults
import FormulaScript.Proofs.Expr.Gathering
import FormulaScript.Proofs.Script.Listing

/-!
# What is reported of a listing

The texts of a listed block are parsed once each and in order, whatever is wrong with the others.
What is reported of a text is reported on the line that it stands on.
-/

namespace FormulaScript.Script

open Text Token

variable {text condition : List Char} {vars : Variables}

/-! ## Lines -/

/-- The text is plain and holds more than blanks. -/
structure Filled (text : List Char) : Prop where
  plain : Plain text
  filled : ¬ ∀ c ∈ text, isBlank c

instance (text : List Char) : Decidable (Filled text) :=
  decidable_of_iff (Plain text ∧ ¬ text.all isBlank)
    ⟨fun h => ⟨h.1, mt List.all_eq_true.2 h.2⟩, fun h => ⟨h.plain, mt List.all_eq_true.1 h.filled⟩⟩

instance (text : List Char) : Decidable (Balanced text) :=
  decidable_of_iff (openAfter 0 text = some 0) ⟨balanced_of_openAfter, fun h => h 0⟩

theorem Filled.tidy_ne_nil (h : Filled text) : tidy text ≠ [] :=
  fun ht => h.filled ((tidy_eq_nil_iff h.plain.spaces).1 ht)

namespace Line

/-- The line holds a text where one belongs. No statement starts with a keyword, and the parentheses
of conditions are balanced. -/
def Filled : Line → Prop
  | statement text =>
    Script.Filled text ∧ ∀ word ∈ ["if", "while", "else"], ¬ word.toList <+: trimLeft text
  | header _ condition => Script.Filled condition ∧ Balanced condition
  | _ => True

/-- What is to be reported of a line: what is wrong with its text, which in a statement is preceded
by the text as a whole. -/
def faults (vars : Variables) (n : Nat) : Line → List Diagnostic
  | statement text =>
    match (Expr.parse text vars false).diagnostics with
    | [] => []
    | problems => fault (.invalidExpression (String.ofList (tidy text))) n ::
        problems.map (fault ·.problem n)
  | header _ condition =>
    (Expr.parse (wrapped condition) vars false).diagnostics.map (fault ·.problem n)
  | _ => []

instance (line : Line) : Decidable line.Filled :=
  match line with
  | statement _ | header _ _ => inferInstanceAs (Decidable (_ ∧ _))
  | otherwise | opening | closing => .isTrue trivial

theorem Filled.plain {line : Line} (h : line.Filled) : line.Plain := by
  cases line with
  | statement | header => exact h.1.plain
  | otherwise | opening | closing => trivial

end Line

/-- What is to be reported of lines, numbered from a line on. -/
def faults (vars : Variables) : Nat → List Line → List Diagnostic
  | _, [] => []
  | n, line :: lines => line.faults vars n ++ faults vars (n + 1) lines

theorem faults_append (vars : Variables) (n : Nat) (lines lines' : List Line) :
    faults vars n (lines ++ lines') =
      faults vars n lines ++ faults vars (n + lines.length) lines' := by
  induction lines generalizing n with
  | nil => rfl
  | cons line lines ih =>
    rw [List.cons_append, faults, faults, ih, List.append_assoc, List.length_cons, Nat.add_assoc,
      Nat.add_comm 1]

/-! ## Texts -/

theorem unplaced_atLine {d : Diagnostic} (h : d.line = none) (n : Nat) :
    (d.atLine n).unplaced = fault d.problem n := by
  rw [Diagnostic.atLine, h]
  rfl

/-- What is reported of a text that has the lexemes of another one is what is wrong with that. -/
theorem map_unplaced_parse {text' : List Char} (hn : '\x00' ∉ text) (hn' : '\x00' ∉ text')
    (hl : lexemes text' = lexemes text) (vars : Variables) (n : Nat) :
    ((Expr.parse text' vars false).diagnostics.map (·.atLine n)).map (·.unplaced) =
      (Expr.parse text vars false).diagnostics.map (fault ·.problem n) := by
  have hf := congrArg (List.map (fault ·.problem n)) (Expr.faults_of_lexemes hn hn' hl vars false).1
  rw [List.map_map, List.map_map] at hf
  rw [List.map_map]
  refine Eq.trans (List.map_congr_left fun d hd => ?_) hf
  exact unplaced_atLine (Expr.line_of_mem_parse hd) n

theorem tidy_trimLeft (h : Plain text) : tidy (trimLeft text) = tidy text := by
  rw [tidy_eq_pack h.spaces, tidy_eq_pack h.trimLeft.spaces, trimLeft_trimLeft]

theorem diagnostics_parseEquation (h : Plain text) (n : Nat) :
    (parseEquation (tidy text) n vars false).diagnostics.map (·.unplaced) =
      (Line.statement text).faults vars n := by
  have hd := map_unplaced_parse h.not_mem_nul (not_mem_tidy h.not_mem_nul (by decide))
    h.lexemes_tidy vars n
  unfold parseEquation Line.faults
  dsimp only
  cases hp : (Expr.parse text vars false).diagnostics with
  | nil =>
    rw [hp] at hd
    rw [if_pos (List.isEmpty_iff.2 (List.map_eq_nil_iff.1 hd))]
    rfl
  | cons problem problems =>
    rw [hp] at hd
    have hne : (Expr.parse (tidy text) vars false).diagnostics.map (·.atLine n) ≠ [] := by
      intro hn
      rw [hn] at hd
      cases hd
    rw [if_neg (mt List.isEmpty_iff.1 hne), List.map_cons, hd]
    rfl

theorem diagnostics_parseTest (h : Plain condition) (word : Keyword) (n : Nat) :
    (parseTest (tidy condition) n vars false).diagnostics.map (·.unplaced) =
      (Line.header word condition).faults vars n := by
  have hc : Closed condition := closed_of_not_mem h.not_mem_quote
  have ht : Closed (tidy condition) :=
    closed_of_not_mem (not_mem_tidy h.not_mem_quote (by decide))
  have hl : lexemes (wrapped (tidy condition)) = lexemes (wrapped condition) := by
    rw [lexemes_wrapped ht, lexemes_wrapped hc, h.lexemes_tidy]
  exact map_unplaced_parse (not_mem_wrapped h.not_mem_nul)
    (not_mem_wrapped (not_mem_tidy h.not_mem_nul (by decide))) hl vars n

/-! ## Drafts -/

/-- What is reported of a draft over a fixed list of variables, apart from positions. -/
def Draft.faults (vars : Variables) (draft : Draft) : List Diagnostic :=
  (draft.assemble false vars).diagnostics.map (·.unplaced)

namespace Draft

theorem vars_parseEquation (text : List Char) (line : Nat) (vars : Variables) :
    (parseEquation text line vars false).vars = vars := Expr.vars_parse text vars

theorem vars_parseTest (condition : List Char) (line : Nat) (vars : Variables) :
    (parseTest condition line vars false).vars = vars := Expr.vars_parse _ vars

/-- The variables stay as they are, so every text is parsed over the same ones. -/
theorem vars_assemble (draft : Draft) (vars : Variables) :
    (draft.assemble false vars).vars = vars := by
  induction draft with
  | done | broken => rfl
  | equation text line rest ih =>
    rw [assemble, vars_parseEquation]
    exact ih
  | branch condition line yes no rest ihy ihn ihr =>
    rw [assemble, vars_parseTest, ihy, ihn]
    exact ihr
  | loop condition line body rest ihb ihr =>
    rw [assemble, vars_parseTest, ihb]
    exact ihr

theorem faults_equation (text : List Char) (line : Nat) (rest : Draft) :
    (equation text line rest).faults vars =
      (parseEquation text line vars false).diagnostics.map (·.unplaced) ++ rest.faults vars := by
  rw [faults, assemble, vars_parseEquation]
  exact List.map_append

theorem faults_branch (condition : List Char) (line : Nat) (yes no rest : Draft) :
    (branch condition line yes no rest).faults vars =
      (parseTest condition line vars false).diagnostics.map (·.unplaced) ++ yes.faults vars ++
        no.faults vars ++ rest.faults vars := by
  rw [faults, assemble, vars_parseTest, vars_assemble, vars_assemble]
  simp only [faults, List.map_append]

theorem faults_loop (condition : List Char) (line : Nat) (body rest : Draft) :
    (loop condition line body rest).faults vars =
      (parseTest condition line vars false).diagnostics.map (·.unplaced) ++ body.faults vars ++
        rest.faults vars := by
  rw [faults, assemble, vars_parseTest, vars_assemble]
  simp only [faults, List.map_append]

end Draft

/-! ## Units -/

/-- A word that the unit of a statement starts with stands in front of the statement. -/
theorem prefix_of_unit {word : List Char} (h : Plain text)
    (hw : ∀ c ∈ word, isBlank c = false ∧ c ≠ ';')
    (hp : word.isPrefixOf (squeeze false (trimLeft text) ++ [';'])) : word <+: trimLeft text := by
  obtain ⟨more, hm⟩ := exists_of_isPrefixOf hp fun hc => (hw ';' hc).2 rfl
  obtain ⟨rest, hr, -⟩ := exists_of_collapsed (hm ▸ collapsed_squeeze h.trimLeft.spaces)
    fun c hc => (hw c hc).1
  exact hr ▸ List.prefix_append word rest

namespace Line

theorem Filled.afterKeyword (h : (statement text).Filled) (hw : word ∈ ["if", "while"]) :
    afterKeyword word (statement text).unit = none := by
  refine afterKeyword_statement hw h.1.plain fun ho => ?_
  obtain ⟨blanks, rest, -, ht⟩ := ho
  refine h.2 word (List.mem_append_left ["else"] hw) ?_
  rw [ht, List.append_assoc]
  exact List.prefix_append _ _

/-- The unit of a statement belongs to no `if` in front of it. -/
theorem Filled.follows (h : (statement text).Filled) (n : Nat) (rest : List SourceUnit) :
    Follows (⟨n, (statement text).unit⟩ :: rest) := by
  have hne : ¬ "else".toList.isPrefixOf (statement text).unit := fun hp => by
    have hw : "else".toList.all fun c => isBlank c = false ∧ c ≠ ';' := by decide
    exact h.2 "else" (by decide) (prefix_of_unit h.1.plain
      (fun c hc => of_decide_eq_true (List.all_eq_true.1 hw c hc)) hp)
  rintro _ ⟨⟩
  refine ⟨append_semicolon_ne (by decide), append_semicolon_ne (by decide), ?_⟩
  exact if_neg hne

/-- The draft of a statement of which the unit comes first. -/
theorem Filled.draft_eq (h : (statement text).Filled) (topLevel : Bool) (line n : Nat)
    (rest : List SourceUnit) :
    draft topLevel line [] (⟨n, (statement text).unit⟩ :: rest) =
      .equation (tidy text) n (draft topLevel n [] rest) := by
  have ht : trim (squeeze false (trimLeft text)) = tidy text := tidy_trimLeft h.1.plain
  rw [draft_equation rfl (h.afterKeyword (by decide)) (h.afterKeyword (by decide))
    (ht ▸ h.1.tidy_ne_nil), ht]

theorem unit_header_ne (word : Keyword) (condition : List Char) :
    (header word condition).unit ≠ closingBrace := fun h => by
  have hl := congrArg List.getLast? h
  rw [unit, List.getLast?_concat] at hl
  cases hl

/-- A keyword and its condition are read with the block after them. -/
theorem Filled.exists_header {word : Keyword} (h : (header word condition).Filled)
    (hb : Enclosed body) (n : Nat) : ∃ more,
      Header word.1 (squeeze false condition) body ⟨n, (header word condition).unit⟩ [] more := by
  have hn : trim (squeeze false condition) ≠ [] := h.1.tidy_ne_nil
  have hbal : Balanced (squeeze false condition) := fun level => by
    rw [← openAfter_filter, filter_squeeze, openAfter_filter]
    exact h.2 level
  obtain ⟨unit, others, more, he, hu⟩ := (headed_line word condition n).exists_header hbal hn hb
  cases he
  exact ⟨more, hu⟩

end Line

theorem faults_braces (n : Nat) (line : Line) (body next : List Line) :
    faults vars n (line.braces body next) = line.faults vars n ++ faults vars (n + 2) body ++
      faults vars (n + 2 + body.length + 1) next := by
  have hl : n + (body.length + 1 + 1) = n + 2 + body.length := by omega
  rw [Line.braces, faults_append]
  simp only [faults, Line.faults, List.nil_append, List.length_cons, List.append_assoc, hl]

/-! ## Blocks -/

theorem Block.follows_listing {block : Block} (h : ∀ line ∈ block.listing, line.Filled) (n : Nat) :
    Follows (numbered n block.listing) := by
  cases block with
  | done => nofun
  | equation text rest => exact (List.forall_mem_cons.1 h).1.follows n _
  | branch condition yes tail rest =>
    exact (headed_line ⟨"if", by decide⟩ condition n).follows (.inl rfl) _
  | loop condition body rest =>
    exact (headed_line ⟨"while", by decide⟩ condition n).follows (.inr rfl) _

mutual

/-- The draft of the lines of a block has the faults of its texts. -/
theorem Block.faults_draft (block : Block) (h : ∀ line ∈ block.listing, line.Filled)
    (topLevel : Bool) (start n : Nat) :
    (draft topLevel start [] (numbered n block.listing)).faults vars =
      faults vars n block.listing := by
  cases block with
  | done =>
    rw [Block.listing, numbered_nil, draft_nil]
    rfl
  | equation text rest =>
    obtain ⟨ht, hr⟩ := List.forall_mem_cons.1 h
    rw [Block.listing, numbered_cons, ht.draft_eq, Draft.faults_equation,
      diagnostics_parseEquation ht.1.plain, rest.faults_draft hr, faults]
  | branch condition yes tail rest =>
    obtain ⟨hc, hy, htr⟩ := forall_mem_braces h
    obtain ⟨ht, hr⟩ := List.forall_mem_append.1 htr
    obtain ⟨more, hu⟩ := hc.exists_header (yes.cut_listing (n + 2)).enclosed n
    -- the chain of the `if` ends where the rest of the block starts
    obtain ⟨chain, hchain, hrest, hno⟩ := tail.faults_draft ht (n + 2 + yes.listing.length + 1)
      (Block.follows_listing hr _) (n + 2 + yes.listing.length)
    obtain ⟨lastLine, hd⟩ := draft_branch (Line.unit_header_ne _ _) hu.afterKeyword (hu.branch ..)
      hchain topLevel start
    rw [hrest] at hd
    rw [Block.listing, numbered_braces, numbered_append, faults_braces, faults_append]
    refine (congrArg (Draft.faults vars) hd).trans ?_
    rw [Draft.faults_branch, hno, yes.faults_draft hy, rest.faults_draft hr, List.append_assoc,
      ← diagnostics_parseTest hc.1.plain]
    rfl
  | loop condition body rest =>
    obtain ⟨hc, hb, hr⟩ := forall_mem_braces h
    obtain ⟨more, hu⟩ := hc.exists_header (body.cut_listing (n + 2)).enclosed n
    have hbr := hu.branch "while" n (n + 1) (n + 2 + body.listing.length)
      (numbered (n + 2 + body.listing.length + 1) rest.listing)
    have hd := draft_loop (Line.unit_header_ne _ _) rfl hu.afterKeyword hbr topLevel start
    rw [Block.listing, numbered_braces, faults_braces]
    refine (congrArg (Draft.faults vars) hd).trans ?_
    rw [Draft.faults_loop, body.faults_draft hb, rest.faults_draft hr,
      ← diagnostics_parseTest hc.1.plain]
    rfl

/-- The lines after the first block of an `if` are read up to what follows them. -/
theorem Tail.faults_draft (tail : Tail) (h : ∀ line ∈ tail.listing, line.Filled) (n : Nat)
    {rest : List SourceUnit} (hf : Follows rest) (start : Nat) :
    ∃ chain, readChain ⟨numbered n tail.listing ++ rest, start⟩ = .ok chain ∧
      chain.cursor.units = rest ∧
      ∀ lastLine, (chain.draft lastLine).faults vars = faults vars n tail.listing := by
  cases tail with
  | nothing => exact ⟨_, readChain_follows hf start, rfl, fun _ => rfl⟩
  | otherwise block =>
    obtain ⟨-, hb, -⟩ := forall_mem_braces h
    have hc := readChain_else (block.cut_listing (n + 2)).enclosed hf n (n + 1)
      (n + 2 + block.listing.length) start
    rw [Tail.listing, numbered_braces_append, faults_braces]
    refine ⟨_, hc, rfl, fun lastLine => ?_⟩
    exact (block.faults_draft hb false lastLine (n + 2)).trans (List.append_nil _).symm
  | elseIf condition yes tail =>
    obtain ⟨hc, hy, ht⟩ := forall_mem_braces h
    obtain ⟨more, hu⟩ := hc.exists_header (yes.cut_listing (n + 2)).enclosed n
    obtain ⟨chain, hchain, hrest, hno⟩ := tail.faults_draft ht (n + 2 + yes.listing.length + 1) hf
      (n + 2 + yes.listing.length)
    have hbr := hu.branch "else if" n (n + 1) (n + 2 + yes.listing.length)
      (numbered (n + 2 + yes.listing.length + 1) tail.listing ++ rest)
    have hl := readChain_elseIf hu.afterElseIf hbr hchain start
    rw [Tail.listing, numbered_braces_append, faults_braces]
    refine ⟨_, hl, hrest, fun lastLine => ?_⟩
    refine (Draft.faults_branch ..).trans ?_
    rw [yes.faults_draft hy, ← hno lastLine, ← diagnostics_parseTest hc.1.plain]
    exact List.append_nil _

end

/-! ## Scripts -/

/-- Of a text that lists a block, what is wrong with the texts of its lines is reported once and in
order, each time with the line. If that is nothing the parse is clean, otherwise it leaves no
statements. -/
theorem parse_listing (names : List String) (block : Block) (text : String)
    (h : ∀ line ∈ block.listing, line.Filled) (hl : Lists block.listing text.toList) :
    let script := parse text names
    let reported := faults (.ofNames names (some names.length)) 1 block.listing
    script.diagnostics.map (·.unplaced) = reported ∧
      (script.isClean ↔ reported = []) ∧ (¬ script.isClean → script.program = .nil) := by
  intro script reported
  have hu : units text.toList = numbered 1 block.listing :=
    hl.units fun line hm => (h line hm).plain
  have hd : script.diagnostics.map (·.unplaced) = reported := by
    have hf : (draft true 1 [] (numbered 1 block.listing)).faults
        (.ofNames names (some names.length)) = reported := block.faults_draft h true 1 1
    rwa [← hu] at hf
  refine ⟨hd, ?_, fun hn => ?_⟩
  · rw [← hd, List.map_eq_nil_iff]
    exact List.isEmpty_iff
  · exact if_neg hn

theorem parse_listing_nested :
    let block : Block :=
      .equation "x =".toList <|
        .branch "y > (1)".toList (.equation "1 +* 2".toList .done)
          (.elseIf "x".toList (.loop "x <".toList (.equation "x = 1".toList .done) .done)
            (.otherwise (.equation "x == z(".toList .done)))
          .done
    let text := "x =;\nif (y > (1))\n\x7b\n1 +* 2;\n\x7d\nelse if (x)\n\x7b\nwhile (x <)\n\x7b\n" ++
      "x = 1;\n\x7d\n\x7d\nelse\n\x7b\nx == z(;\n\x7d"
    let script := parse text ["x"]
    let reported := faults (.ofNames ["x"] (some 1)) 1 block.listing
    (∀ line ∈ block.listing, line.Filled) ∧ Lists block.listing text.toList ∧
      reported.map (·.line) = [1, 1, 2, 4, 4, 8, 15, 15].map some ∧
      script.diagnostics.map (·.unplaced) = reported ∧
      (script.isClean ↔ reported = []) ∧ (¬ script.isClean → script.program = .nil) := by
  intro block text script reported
  have h : ∀ line ∈ block.listing, line.Filled := by decide +kernel
  have hl : Lists block.listing text.toList := .inr (by decide +kernel)
  have hn : reported.map (·.line) = [1, 1, 2, 4, 4, 8, 15, 15].map some := by decide +kernel
  exact ⟨h, hl, hn, parse_listing ["x"] block text h hl⟩

end FormulaScript.Script
