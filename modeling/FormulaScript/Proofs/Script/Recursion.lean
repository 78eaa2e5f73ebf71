import FormulaScript.Proofs.Script.Matching

/-!
# Blocks in blocks

A block is read after its units have been cut out, and the blocks in it are read in the same way.
Here the reader of a block asks another reader for the blocks in it. It only asks for blocks of
fewer units than its own, so readers within readers come to an end, and what they give is the draft
of the whole.
-/

namespace FormulaScript.Script

/-! ## Readers in readers -/

/-- The branches and the `else` block after the first branch of an `if`, with their blocks read by
`inner`. -/
def Chain.draftOver (inner : Nat → List SourceUnit → Option Draft) (lastLine : Nat)
    (chain : Chain) : Option Draft := do
  let branches ← chain.branches.mapM fun branch => do
    return (branch.condition, branch.line, ← inner branch.line branch.body)
  let otherwise ← chain.otherwise.elim (some .done) (inner lastLine)
  return Draft.ofChain .done otherwise branches

/-- The statements of a block, with the blocks in it read by `inner` from their lines and units.
There are none if `inner` gives none for one of these blocks. -/
def draftOver (inner : Nat → List SourceUnit → Option Draft) (topLevel : Bool) (line : Nat)
    (pieces : List (List Char)) (units : List SourceUnit) : Option Draft :=
  match units with
  | [] =>
    if pieces.isEmpty then some .done
    else if topLevel then some (.broken (fault .unexpectedEndOfScript line))
    else some (.broken (fault (.missingSemicolon .closingBrace) line))
  | unit :: rest =>
    if unit.text = closingBrace then some (.broken (fault .unmatchedBrace unit.line))
    else
      match afterKeyword "if" unit.text, afterKeyword "while" unit.text with
      | some text, _ =>
        if !pieces.isEmpty then some (.broken (fault (.missingSemicolon .ifKeyword) unit.line))
        else
          match _hb : readBranch "if" unit.line text ⟨rest, unit.line⟩ with
          | .error problem => some (.broken problem)
          | .ok (first, left) =>
            match _hc : readChain left with
            | .error problem => some (.broken problem)
            | .ok chain => do
              let lastLine := (chain.branches.getLast?.map Branch.line).getD unit.line
              return .branch first.condition unit.line (← inner unit.line first.body)
                (← chain.draftOver inner lastLine)
                (← draftOver inner topLevel chain.cursor.line [] chain.cursor.units)
      | none, some text =>
        if !pieces.isEmpty then some (.broken (fault (.missingSemicolon .whileKeyword) unit.line))
        else
          match _hb : readBranch "while" unit.line text ⟨rest, unit.line⟩ with
          | .error problem => some (.broken problem)
          | .ok (branch, left) => do
            return .loop branch.condition unit.line (← inner unit.line branch.body)
              (← draftOver inner topLevel left.line [] left.units)
      | none, none =>
        if unit.text.getLast? = some ';' then do
          let text := joinPieces (pieces ++ [unit.text.dropLast])
          let after ← draftOver inner topLevel unit.line [] rest
          return if text.isEmpty then after else .equation text unit.line after
        else draftOver inner topLevel unit.line (pieces ++ [unit.text]) rest
termination_by units.length
decreasing_by
  all_goals simp only [List.length_cons]
  all_goals try have := readBranch_length _hb
  all_goals try have := readChain_length _hc
  all_goals grind

/-- The reader of blocks of fewer than `bound` units, which gives nothing for any other. -/
def draftBelow (bound line : Nat) (body : List SourceUnit) : Option Draft :=
  if body.length < bound then some (draft false line [] body) else none

/-- The reader of blocks with at most `depth` readers at work, each for a block of the one before.
It gives nothing where one more is needed. -/
def draftWithin : Nat → Nat → List SourceUnit → Option Draft
  | 0, _, _ => none
  | depth + 1, line, body => draftOver (draftWithin depth) false line [] body

/-! ## Bounds -/

/-- The reader gives the draft of every block of fewer than `bound` units. -/
def ReadsBelow (inner : Nat → List SourceUnit → Option Draft) (bound : Nat) : Prop :=
  ∀ line body, body.length < bound → inner line body = some (draft false line [] body)

variable {inner : Nat → List SourceUnit → Option Draft} {bound : Nat}

theorem ReadsBelow.branches {branches : List Branch} (h : ReadsBelow inner bound)
    (hb : ∀ branch ∈ branches, branch.body.length < bound) :
    (branches.mapM fun branch => do
      return (branch.condition, branch.line, ← inner branch.line branch.body)) =
      some (branches.map fun branch =>
        (branch.condition, branch.line, draft false branch.line [] branch.body)) := by
  induction branches with
  | nil => rfl
  | cons branch branches ih =>
    obtain ⟨hbranch, hb⟩ := List.forall_mem_cons.1 hb
    rw [List.mapM_cons, h _ _ hbranch, ih hb]
    rfl

theorem ReadsBelow.chain {chain : Chain} (h : ReadsBelow inner bound)
    (hb : ∀ branch ∈ chain.branches, branch.body.length < bound)
    (ho : ∀ body ∈ chain.otherwise, body.length < bound) (lastLine : Nat) :
    chain.draftOver inner lastLine = some (chain.draft lastLine) := by
  have hotherwise : chain.otherwise.elim (some .done) (inner lastLine) =
      some (chain.otherwise.elim .done (draft false lastLine [])) := by
    cases he : chain.otherwise with
    | none => rfl
    | some body => exact h _ _ (ho body he)
  rw [Chain.draftOver, h.branches hb, hotherwise]
  rfl

theorem ReadsBelow.draftOver_eq (h : ReadsBelow inner bound) (topLevel : Bool) (line : Nat)
    (pieces : List (List Char)) {units : List SourceUnit} (hl : units.length ≤ bound) :
    draftOver inner topLevel line pieces units = some (draft topLevel line pieces units) := by
  fun_induction draftOver inner topLevel line pieces units with
  | case1 | case2 | case3 => simp_all [draft]
  | case4 | case5 | case6 | case7 | case9 | case10 => simp_all [draft_cons]
  | case8 _ _ unit rest hc text hi he first left hb chain hch lastLine ih =>
    -- every block of the chain is cut out of the units after its header
    have hlength := readBranch_length hb
    obtain ⟨hbranches, hotherwise, hleft⟩ := readChain_length hch
    simp only [List.length_cons] at hl hlength
    have hfirst := h unit.line first.body (by omega)
    have hchain := h.chain (fun branch hm => by have := hbranches branch hm; omega)
      (fun body hm => by have := hotherwise body hm; omega) lastLine
    rw [hfirst, hchain, ih (by omega)]
    simp only [draft_cons, if_neg hc, hi, if_neg he, hb, hch]
    rfl
  | case11 _ _ unit rest hc text hw hi he branch left hb ih =>
    have hlength := readBranch_length hb
    simp only [List.length_cons] at hl hlength
    rw [h unit.line branch.body (by omega), ih (by omega)]
    simp only [draft_cons, if_neg hc, hi, hw, if_neg he, hb]
    rfl
  | case12 _ _ unit rest hc hw hi hs text ih =>
    rw [ih (by rw [List.length_cons] at hl; omega)]
    simp only [draft_cons, if_neg hc, hi, hw, if_pos hs]
    rfl
  | case13 _ _ unit rest hc hw hi hs ih =>
    rw [ih (by rw [List.length_cons] at hl; omega)]
    simp only [draft_cons, if_neg hc, hi, hw, if_neg hs]

theorem draftWithin_eq {depth : Nat} {body : List SourceUnit} (h : body.length < depth)
    (line : Nat) : draftWithin depth line body = some (draft false line [] body) := by
  induction depth generalizing line body with
  | zero => exact absurd h (Nat.not_lt_zero _)
  | succ depth ih =>
    have hinner : ReadsBelow (draftWithin depth) depth := fun line body hb => ih hb line
    exact hinner.draftOver_eq false line [] (Nat.le_of_lt_succ h)

/-! ## Nesting -/

open UnitCursor

/-- The units of a block are those before the first closing brace with which the level of nesting,
one at the start, comes to zero. The cursor is left after this brace, and without one the block is
not read. A condition ends with the first parenthesis of that kind, and it is the same parenthesis
whether the level is carried from unit to unit or the units are scanned as one text, wherever this
is split. So a reader of a block needs a reader of blocks of fewer units than its own only, and a
script is read by readers within one another that go no deeper than it has units. -/
theorem cuts_match_nesting (start : UnitCursor) (text : List Char) (level : Nat)
    (topLevel : Bool) :
    (∀ body left, readBlock 0 start.line start.units = .ok (body, left) ↔
      ∃ i, unitBraces.EndsAt 1 start.units i ∧ body = start.units.take i ∧
        left = advance^[i + 1] start) ∧
    (∀ problem, readBlock 0 start.line start.units = .error problem ↔
      (∀ i, ¬ unitBraces.ClosesAt 1 start.units i) ∧
        problem = fault .unbalancedBraces (advance^[start.units.length] start).line) ∧
    (∀ before after, scanParentheses (level + 1) text = .closed before after ↔
      ∃ i, parentheses.EndsAt (level + 1) text i ∧ before = text.take i ∧
        after = text.drop (i + 1)) ∧
    (∀ left : Nat, scanParentheses (level + 1) text = .unclosed left ↔
      (∀ i, ¬ parentheses.ClosesAt (level + 1) text i) ∧
        parentheses.levelAfter (level + 1) text = left) ∧
    (∀ before rest, scanParentheses (level + 1) (start.parts text).flatten = .closed before rest ↔
      ∃ i last after, (start.parts text)[i]? = some (last ++ ')' :: after) ∧
        before = ((start.parts text).take i).flatten ++ last ∧
        rest = after ++ ((start.parts text).drop (i + 1)).flatten ∧
        readPieces (level + 1) start.line text start.units =
          .ok ((start.parts text).take i ++ [last], after, advance^[i] start)) ∧
    (∀ problem, readPieces (level + 1) start.line text start.units = .error problem ↔
      (∃ left, scanParentheses (level + 1) (start.parts text).flatten = .unclosed left) ∧
        problem = fault .unbalancedCondition (advance^[start.units.length] start).line) ∧
    draftOver (draftBelow start.units.length) topLevel start.line [] start.units =
      some (draft topLevel start.line [] start.units) ∧
    ∀ script, draftOver (draftWithin (units script).length) true 1 [] (units script) =
      some (Draft.ofScript script) := by
  have hbelow : ReadsBelow (draftBelow start.units.length) start.units.length :=
    fun _ _ hb => if_pos hb
  have hwithin (script : List Char) :
      ReadsBelow (draftWithin (units script).length) (units script).length :=
    fun line _ hb => draftWithin_eq hb line
  exact ⟨fun _ _ => readBlock_eq_ok_iff, fun _ => readBlock_eq_error_iff,
    fun _ _ => scanParentheses_eq_closed_iff, fun _ => scanParentheses_eq_unclosed_iff,
    fun _ _ => scanParentheses_parts_eq_closed_iff, fun _ => readPieces_eq_error_iff,
    hbelow.draftOver_eq topLevel start.line [] (Nat.le_refl _),
    fun script => (hwithin script).draftOver_eq true 1 [] (Nat.le_refl _)⟩

/-- A reader that reads no blocks does not get past one. -/
example : draftOver (fun _ _ => none) true 1 [] (units "x = 1; while (x) \x7b \x7d".toList) =
    none := by
  decide +kernel

end FormulaScript.Script
