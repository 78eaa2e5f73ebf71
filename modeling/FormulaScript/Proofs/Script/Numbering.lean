import FormulaScript.Proofs.Expr.Faults
import FormulaScript.Proofs.Script.Structure

/-!
# The numbers of lines

The lines of the units of a script are passed on and looked at by no reader. So with the lines
numbered in another way the draft is the same but for its lines.
-/

namespace FormulaScript

/-- The diagnostic with its line renumbered. -/
def Diagnostic.renumber (f : Nat → Nat) (diagnostic : Diagnostic) : Diagnostic :=
  { diagnostic with line := diagnostic.line.map f }

namespace Script

open Text

/-- The unit with its line renumbered. -/
def SourceUnit.renumber (f : Nat → Nat) (unit : SourceUnit) : SourceUnit := ⟨f unit.line, unit.text⟩

/-- The units with their lines renumbered. -/
abbrev renumberUnits (f : Nat → Nat) (us : List SourceUnit) : List SourceUnit :=
  us.map (·.renumber f)

/-- The cursor with its lines renumbered. -/
def UnitCursor.renumber (f : Nat → Nat) (cursor : UnitCursor) : UnitCursor :=
  ⟨renumberUnits f cursor.units, f cursor.line⟩

/-- The branch with its lines renumbered. -/
def Branch.renumber (f : Nat → Nat) (branch : Branch) : Branch :=
  ⟨branch.condition, f branch.line, renumberUnits f branch.body⟩

/-- The chain with its lines renumbered. -/
def Chain.renumber (f : Nat → Nat) (chain : Chain) : Chain :=
  ⟨chain.branches.map (·.renumber f), chain.otherwise.map (renumberUnits f),
    chain.cursor.renumber f⟩

/-- The draft with its lines renumbered. -/
def Draft.renumber (f : Nat → Nat) : Draft → Draft
  | done => done
  | broken fault => broken (fault.renumber f)
  | equation text line rest => equation text (f line) (rest.renumber f)
  | branch condition line yes no rest =>
    branch condition (f line) (yes.renumber f) (no.renumber f) (rest.renumber f)
  | loop condition line body rest => loop condition (f line) (body.renumber f) (rest.renumber f)

/-- A result with its value changed, or with its fault renumbered. -/
def renumbered (f : Nat → Nat) (change : α → α) (result : Except Diagnostic α) :
    Except Diagnostic α := (result.map change).mapError (·.renumber f)

variable (f : Nat → Nat)

/-! ## Readers -/

theorem renumbered_bind {change : α → α} {change' : β → β} {next next' : α → Except Diagnostic β}
    (h : ∀ a, next' (change a) = renumbered f change' (next a)) (result : Except Diagnostic α) :
    renumbered f change result >>= next' = renumbered f change' (result >>= next) := by
  cases result with
  | error problem => rfl
  | ok a => exact h a

theorem readBlock_renumber (depth line : Nat) (us : List SourceUnit) :
    readBlock depth (f line) (renumberUnits f us) =
      renumbered f (Prod.map (renumberUnits f) (·.renumber f)) (readBlock depth line us) := by
  induction us generalizing depth line with
  | nil => rfl
  | cons unit rest ih =>
    have step (depth : Nat) : (readBlock depth (f unit.line) (renumberUnits f rest)).map
        (Prod.map (unit.renumber f :: ·) id) =
          renumbered f (Prod.map (renumberUnits f) (·.renumber f))
            ((readBlock depth unit.line rest).map (Prod.map (unit :: ·) id)) := by
      rw [ih]
      cases readBlock depth unit.line rest <;> rfl
    rw [renumberUnits, List.map_cons]
    unfold readBlock
    change (if unit.text = closingBrace then _ else _) = _
    split
    · cases depth with
      | zero => rfl
      | succ depth => exact step depth
    · exact step _

theorem openBlock_renumber (problem : Problem) (cursor : UnitCursor) :
    openBlock problem (cursor.renumber f) =
      renumbered f (·.renumber f) (openBlock problem cursor) := by
  obtain ⟨us, line⟩ := cursor
  cases us with
  | nil => rfl
  | cons unit rest =>
    change (if unit.text = openingBrace then _ else _) =
      renumbered f _ (if unit.text = openingBrace then _ else _)
    split <;> rfl

theorem readPieces_renumber (level line : Nat) (text : List Char) (us : List SourceUnit) :
    readPieces level (f line) text (renumberUnits f us) =
      renumbered f (Prod.map id (Prod.map id (·.renumber f))) (readPieces level line text us) := by
  induction us generalizing level line text with
  | nil =>
    rw [renumberUnits, List.map_nil, readPieces, readPieces]
    split <;> rfl
  | cons unit rest ih =>
    rw [renumberUnits, List.map_cons, readPieces, readPieces]
    split
    · rfl
    · next left _ =>
      have hr := ih left unit.line unit.text
      change Except.map _ (readPieces left (f unit.line) unit.text (renumberUnits f rest)) = _
      rw [hr]
      cases readPieces left unit.line unit.text rest <;> rfl

theorem conditionStart_renumber (text : List Char) (cursor : UnitCursor) :
    conditionStart text (cursor.renumber f) =
      Prod.map id (·.renumber f) (conditionStart text cursor) := by
  obtain ⟨us, line⟩ := cursor
  unfold conditionStart
  split
  · cases us <;> rfl
  · rfl

theorem readCondition_of_start {cursor start : UnitCursor}
    (h : conditionStart text cursor = ('(' :: rest, start)) (keyword : String) :
    readCondition keyword text cursor =
      match readPieces 1 start.line rest start.units with
      | .error problem => .error problem
      | .ok (pieces, after, left) =>
        if !(trim after).isEmpty then
          .error (fault (.textAfterCondition (String.ofList (trim after))) left.line)
        else if (joinPieces pieces).isEmpty then .error (fault .emptyCondition left.line)
        else (openBlock .missingBraceAfterCondition left).map fun opened =>
          (joinPieces pieces, opened) := by
  rw [readCondition, h]
  rfl

theorem readCondition_of_missing {cursor start : UnitCursor}
    (h : conditionStart text cursor = (first, start)) (hf : first.head? ≠ some '(')
    (keyword : String) :
    readCondition keyword text cursor =
      .error (fault (.missingParenthesis keyword) start.line) := by
  rw [readCondition, h]
  split
  · next heq =>
    obtain ⟨rfl, -⟩ := Prod.mk.inj heq
    exact absurd rfl hf
  · next heq =>
    obtain ⟨-, rfl⟩ := Prod.mk.inj heq
    rfl

theorem readCondition_renumber (keyword : String) (text : List Char) (cursor : UnitCursor) :
    readCondition keyword text (cursor.renumber f) =
      renumbered f (Prod.map id (·.renumber f)) (readCondition keyword text cursor) := by
  have hstart := conditionStart_renumber f text cursor
  cases h : conditionStart text cursor with | mk first start
  rw [h] at hstart
  by_cases hf : first.head? = some '('
  · obtain ⟨rest, rfl⟩ := List.head?_eq_some_iff.1 hf
    have hp := readPieces_renumber f 1 start.line rest start.units
    rw [readCondition_of_start h, readCondition_of_start hstart]
    change (match readPieces 1 (f start.line) rest (renumberUnits f start.units) with
      | .error problem => _
      | .ok (pieces, after, left) => _) = _
    rw [hp]
    cases readPieces 1 start.line rest start.units with
    | error problem => rfl
    | ok result =>
      obtain ⟨pieces, after, left⟩ := result
      change (if !(trim after).isEmpty then _ else if (joinPieces pieces).isEmpty then _ else
        (openBlock .missingBraceAfterCondition (left.renumber f)).map _) =
          renumbered f _ (if !(trim after).isEmpty then _ else
            if (joinPieces pieces).isEmpty then _ else _)
      split
      · rfl
      · split
        · rfl
        · rw [openBlock_renumber]
          cases openBlock .missingBraceAfterCondition left <;> rfl
  · rw [readCondition_of_missing h hf, readCondition_of_missing hstart hf]
    rfl

theorem readBranch_renumber (keyword : String) (line : Nat) (text : List Char)
    (cursor : UnitCursor) :
    readBranch keyword (f line) text (cursor.renumber f) =
      renumbered f (Prod.map (·.renumber f) (·.renumber f))
        (readBranch keyword line text cursor) := by
  unfold readBranch
  rw [readCondition_renumber]
  cases readCondition keyword text cursor with
  | error problem => rfl
  | ok result =>
    obtain ⟨condition, opened⟩ := result
    have hb := readBlock_renumber f 0 opened.line opened.units
    change Except.map _ (readBlock 0 (f opened.line) (renumberUnits f opened.units)) =
      renumbered f _ (Except.map _ (readBlock 0 opened.line opened.units))
    rw [hb]
    cases readBlock 0 opened.line opened.units <;> rfl

theorem readChain_renumber (cursor : UnitCursor) :
    readChain (cursor.renumber f) = renumbered f (·.renumber f) (readChain cursor) := by
  induction hsize : cursor.units.length using Nat.strongRecOn generalizing cursor with
  | _ size ih
  obtain ⟨us, line⟩ := cursor
  cases us with
  | nil =>
    change readChain ⟨[], f line⟩ = _
    rw [readChain, readChain]
    rfl
  | cons unit rest =>
    change readChain ⟨⟨f unit.line, unit.text⟩ :: renumberUnits f rest, f line⟩ = _
    rw [readChain_cons, readChain_cons]
    dsimp only
    split
    · rfl
    · split
      · have ho : openBlock .missingBraceAfterElse ⟨renumberUnits f rest, f unit.line⟩ = _ :=
          openBlock_renumber f .missingBraceAfterElse ⟨rest, unit.line⟩
        rw [ho]
        refine renumbered_bind f (fun opened => ?_) _
        have hb := readBlock_renumber f 0 opened.line opened.units
        change readBlock 0 (f opened.line) (renumberUnits f opened.units) >>= _ = _
        rw [hb]
        refine renumbered_bind f (fun result => ?_) _
        obtain ⟨body, ⟨us, line⟩⟩ := result
        cases us with
        | nil => rfl
        | cons next us =>
          change (if next.text = closingBrace then _ else _) =
            renumbered f _ (if next.text = closingBrace then _ else _)
          split <;> rfl
      · cases afterElseIf unit.text with
        | none => rfl
        | some text =>
          have hb := readBranch_renumber f "else if" unit.line text ⟨rest, unit.line⟩
          change readBranch "else if" (f unit.line) text
            (UnitCursor.renumber f ⟨rest, unit.line⟩) >>= _ =
              renumbered f _ (readBranch "else if" unit.line text ⟨rest, unit.line⟩ >>= _)
          rw [hb]
          cases hbranch : readBranch "else if" unit.line text ⟨rest, unit.line⟩ with
          | error problem => rfl
          | ok result =>
            obtain ⟨branch, left⟩ := result
            have hlength := readBranch_length hbranch
            dsimp only [List.length_cons] at hlength hsize
            have hchain := ih _ (by omega) left rfl
            change readChain (left.renumber f) >>= _ = renumbered f _ (readChain left >>= _)
            rw [hchain]
            cases readChain left <;> rfl

/-! ## Drafts -/

theorem Draft.renumber_ofChain (rest otherwise : Draft)
    (branches : List (List Char × Nat × Draft)) :
    (Draft.ofChain rest otherwise branches).renumber f =
      Draft.ofChain (rest.renumber f) (otherwise.renumber f)
        (branches.map fun branch => (branch.1, f branch.2.1, branch.2.2.renumber f)) := by
  induction branches generalizing rest with
  | nil => rfl
  | cons branch branches ih =>
    exact congrArg (Draft.branch _ _ _ · _) (ih .done)

/-- The chain has the renumbered draft if its blocks have. -/
theorem Chain.draft_renumber {chain : Chain} {line : Nat}
    (hb : ∀ branch ∈ chain.branches, Script.draft false (f branch.line) []
      (renumberUnits f branch.body) = (Script.draft false branch.line [] branch.body).renumber f)
    (ho : ∀ body ∈ chain.otherwise, Script.draft false (f line) [] (renumberUnits f body) =
      (Script.draft false line [] body).renumber f) :
    (chain.renumber f).draft (f line) = (chain.draft line).renumber f := by
  have hbranches : (chain.renumber f).branches.map (fun branch =>
      (branch.condition, branch.line, Script.draft false branch.line [] branch.body)) =
      (chain.branches.map fun branch => (branch.condition, branch.line,
        Script.draft false branch.line [] branch.body)).map
          fun branch => (branch.1, f branch.2.1, branch.2.2.renumber f) := by
    rw [Chain.renumber, List.map_map, List.map_map]
    refine List.map_congr_left fun branch hm => ?_
    exact congrArg (fun draft => (branch.condition, f branch.line, draft)) (hb branch hm)
  have hotherwise : (chain.renumber f).otherwise.elim .done (Script.draft false (f line) []) =
      (chain.otherwise.elim .done (Script.draft false line [])).renumber f := by
    rw [Chain.renumber]
    cases h : chain.otherwise with
    | none => rfl
    | some body => exact ho body h
  rw [Chain.draft, Chain.draft, Draft.renumber_ofChain, hbranches, hotherwise]
  rfl

theorem draft_renumber (topLevel : Bool) (line : Nat) (pieces : List (List Char))
    (us : List SourceUnit) :
    draft topLevel (f line) pieces (renumberUnits f us) =
      (draft topLevel line pieces us).renumber f := by
  induction hsize : us.length using Nat.strongRecOn generalizing topLevel line pieces us with
  | _ size ih
  cases us with
  | nil =>
    rw [renumberUnits, List.map_nil, draft, draft]
    split
    · rfl
    · split <;> rfl
  | cons unit rest =>
    rw [List.length_cons] at hsize
    have ih (topLevel : Bool) (line : Nat) (pieces : List (List Char)) (us : List SourceUnit)
        (h : us.length ≤ rest.length) : draft topLevel (f line) pieces (renumberUnits f us) =
          (draft topLevel line pieces us).renumber f :=
      ih _ (by omega) topLevel line pieces us rfl
    change draft topLevel (f line) pieces (⟨f unit.line, unit.text⟩ :: renumberUnits f rest) = _
    rw [draft_cons, draft_cons]
    dsimp only
    by_cases hc : unit.text = closingBrace
    · rw [if_pos hc, if_pos hc]
      rfl
    rw [if_neg hc, if_neg hc]
    cases afterKeyword "if" unit.text with
    | some text =>
      have hb : readBranch "if" (f unit.line) text ⟨renumberUnits f rest, f unit.line⟩ =
          renumbered f _ _ := readBranch_renumber f "if" unit.line text ⟨rest, unit.line⟩
      dsimp only
      split
      · rfl
      rw [hb]
      cases hbranch : readBranch "if" unit.line text ⟨rest, unit.line⟩ with
      | error problem => rfl
      | ok result =>
        obtain ⟨first, left⟩ := result
        dsimp only [renumbered, Except.map, Except.mapError, Prod.map]
        rw [readChain_renumber]
        cases hchain : readChain left with
        | error problem => rfl
        | ok chain =>
          have hlength := readBranch_length hbranch
          obtain ⟨hbranches, hotherwise, hleft⟩ := readChain_length hchain
          dsimp only at hlength
          have hlast : ((chain.renumber f).branches.getLast?.map Branch.line).getD (f unit.line) =
              f ((chain.branches.getLast?.map Branch.line).getD unit.line) := by
            rw [Chain.renumber, List.getLast?_map]
            cases chain.branches.getLast? <;> rfl
          have hno := Chain.draft_renumber f
            (fun branch hm => ih false _ [] branch.body (by have := hbranches branch hm; omega))
            (fun body hm => ih false ((chain.branches.getLast?.map Branch.line).getD unit.line) []
              body (by have := hotherwise body hm; omega))
          change Draft.branch _ _ (draft false (f unit.line) [] (renumberUnits f first.body))
            ((chain.renumber f).draft _) (draft topLevel (f chain.cursor.line) []
              (renumberUnits f chain.cursor.units)) = _
          rw [ih _ _ _ first.body (by omega), hlast, hno,
            ih _ _ _ chain.cursor.units (by omega)]
          rfl
    | none =>
      cases afterKeyword "while" unit.text with
      | some text =>
        have hb : readBranch "while" (f unit.line) text ⟨renumberUnits f rest, f unit.line⟩ =
            renumbered f _ _ := readBranch_renumber f "while" unit.line text ⟨rest, unit.line⟩
        dsimp only
        split
        · rfl
        rw [hb]
        cases hbranch : readBranch "while" unit.line text ⟨rest, unit.line⟩ with
        | error problem => rfl
        | ok result =>
          obtain ⟨body, left⟩ := result
          have hlength := readBranch_length hbranch
          dsimp only at hlength
          change Draft.loop _ _ (draft false (f unit.line) [] (renumberUnits f body.body))
            (draft topLevel (f left.line) [] (renumberUnits f left.units)) = _
          rw [ih _ _ _ body.body (by omega), ih _ _ _ left.units (by omega)]
          rfl
      | none =>
        have hrest := ih topLevel unit.line [] rest (Nat.le_refl _)
        dsimp only
        split
        · split
          · exact hrest
          · exact congrArg (Draft.equation _ _) hrest
        · exact ih topLevel unit.line _ rest (Nat.le_refl _)

end Script

end FormulaScript
