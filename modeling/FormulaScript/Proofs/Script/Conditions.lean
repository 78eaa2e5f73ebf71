import FormulaScript.Proofs.Expr.Parentheses
import FormulaScript.Proofs.Text.Blank
import FormulaScript.Script.Draft

/-!
# Conditions

A condition is cut out of a script by counting parentheses character by character, so the characters
of every condition are balanced, those of its strings among them.
-/

namespace FormulaScript.Script

open Text

variable {text : List Char}

/-! ## Results -/

theorem bind_eq_ok {a : Except ε α} {f : α → Except ε β} :
    a >>= f = .ok r ↔ ∃ i, a = .ok i ∧ f i = .ok r := by
  cases a <;> simp [bind, Except.bind]

theorem map_eq_ok {a : Except ε α} {f : α → β} :
    a.map f = .ok r ↔ ∃ i, a = .ok i ∧ f i = r := by
  cases a <;> simp [Except.map]

/-! ## Counting -/

theorem Scan.cons_eq_closed {scan : Scan} (h : scan.cons c = .closed before after) :
    ∃ inner, before = c :: inner ∧ scan = .closed inner after := by
  cases scan with
  | closed inner after => cases h; exact ⟨inner, rfl, rfl⟩
  | unclosed => cases h

theorem Scan.cons_eq_unclosed {scan : Scan} (h : scan.cons c = .unclosed left) :
    scan = .unclosed left := by
  cases scan with
  | closed => cases h
  | unclosed => exact h

/-- What stands before the parenthesis that closes all open ones closes all but that one. -/
theorem openAfter_of_closed {level : Nat} {before after : List Char}
    (h : scanParentheses (level + 1) text = .closed before after) :
    openAfter level before = some 0 := by
  induction text generalizing level before with
  | nil => cases h
  | cons c text ih =>
    rw [scanParentheses] at h
    split at h
    · next ho =>
      obtain ⟨inner, rfl, hs⟩ := Scan.cons_eq_closed h
      simp only [openAfter, if_pos ho]
      exact ih hs
    · next ho =>
      split at h
      · next hc =>
        cases level with
        | zero =>
          cases h
          rfl
        | succ level =>
          rw [if_neg (by omega), Nat.add_sub_cancel] at h
          obtain ⟨inner, rfl, hs⟩ := Scan.cons_eq_closed h
          simp only [openAfter, if_neg ho, if_pos hc]
          exact ih hs
      · next hc =>
        obtain ⟨inner, rfl, hs⟩ := Scan.cons_eq_closed h
        simp only [openAfter, if_neg ho, if_neg hc]
        exact ih hs

theorem eq_of_closed {level : Nat} {before after : List Char}
    (h : scanParentheses level text = .closed before after) : text = before ++ ')' :: after := by
  induction text generalizing level before with
  | nil => cases h
  | cons c text ih =>
    rw [scanParentheses] at h
    split at h
    · obtain ⟨inner, rfl, hs⟩ := Scan.cons_eq_closed h
      exact congrArg _ (ih hs)
    · split at h
      · next hc =>
        split at h
        · cases h
          exact congrArg (· :: after) hc
        · obtain ⟨inner, rfl, hs⟩ := Scan.cons_eq_closed h
          exact congrArg _ (ih hs)
      · obtain ⟨inner, rfl, hs⟩ := Scan.cons_eq_closed h
        exact congrArg _ (ih hs)

theorem openAfter_of_unclosed {level left : Nat}
    (h : scanParentheses (level + 1) text = .unclosed left) :
    ∃ level', left = level' + 1 ∧ openAfter level text = some level' := by
  induction text generalizing level with
  | nil =>
    cases h
    exact ⟨level, rfl, rfl⟩
  | cons c text ih =>
    rw [scanParentheses] at h
    split at h
    · next ho =>
      simp only [openAfter, if_pos ho]
      exact ih (Scan.cons_eq_unclosed h)
    · next ho =>
      split at h
      · next hc =>
        cases level with
        | zero => cases h
        | succ level =>
          rw [if_neg (by omega), Nat.add_sub_cancel] at h
          simp only [openAfter, if_neg ho, if_pos hc]
          exact ih (Scan.cons_eq_unclosed h)
      · next hc =>
        simp only [openAfter, if_neg ho, if_neg hc]
        exact ih (Scan.cons_eq_unclosed h)

/-! ## Pieces -/

theorem openAfter_of_readPieces {level line : Nat} {text after : List Char}
    {units : List SourceUnit} {pieces : List (List Char)} {cursor : UnitCursor}
    (h : readPieces (level + 1) line text units = .ok (pieces, after, cursor)) :
    openAfter level pieces.flatten = some 0 := by
  induction units generalizing level line text pieces with
  | nil =>
    unfold readPieces at h
    split at h
    · next hs =>
      cases h
      simpa using openAfter_of_closed hs
    · cases h
  | cons unit rest ih =>
    unfold readPieces at h
    split at h
    · next hs =>
      cases h
      simpa using openAfter_of_closed hs
    · next left hs =>
      obtain ⟨level', rfl, hl⟩ := openAfter_of_unclosed hs
      obtain ⟨⟨inner, tail, left⟩, hr, h⟩ := map_eq_ok.1 h
      cases h
      rw [List.flatten_cons, openAfter_append, hl]
      exact ih hr

theorem filter_trim (text : List Char) :
    (trim text).filter isParenthesis = text.filter isParenthesis := by
  obtain ⟨before, after, hb, ha, ht⟩ := exists_trim text
  conv_rhs => rw [ht]
  rw [List.filter_append, List.filter_append, Token.filter_blanks hb, Token.filter_blanks ha,
    List.nil_append, List.append_nil]

theorem intercalate_cons_cons (piece next : List Char) (pieces : List (List Char)) :
    [' '].intercalate (piece :: next :: pieces) =
      piece ++ ' ' :: [' '].intercalate (next :: pieces) := by
  simp [List.intercalate]

theorem filter_intercalate (pieces : List (List Char)) :
    ([' '].intercalate pieces).filter isParenthesis = pieces.flatten.filter isParenthesis := by
  induction pieces with
  | nil => rfl
  | cons piece pieces ih =>
    cases pieces with
    | nil => simp [List.intercalate]
    | cons next pieces =>
      have hb : isParenthesis ' ' = false := by decide
      rw [intercalate_cons_cons, List.filter_append, List.filter_cons_of_neg (by simp [hb]), ih,
        ← List.filter_append]
      rfl

theorem filter_joinPieces (pieces : List (List Char)) :
    (joinPieces pieces).filter isParenthesis = pieces.flatten.filter isParenthesis := by
  rw [joinPieces, filter_intercalate]
  induction pieces with
  | nil => rfl
  | cons piece pieces ih =>
    rw [List.map_cons, List.flatten_cons, List.filter_append, ← ih, ← filter_trim piece]
    by_cases ht : trim piece = []
    · simp [ht]
    · rw [List.filter_cons_of_pos (by simpa using ht), List.flatten_cons, List.filter_append]

/-! ## Branches -/

/-- A condition is read from the parenthesis in front of it to the brace after it. -/
theorem readCondition_eq_ok {cursor : UnitCursor} :
    readCondition keyword text cursor = .ok (condition, opened) ↔
      ∃ rest start pieces after left, conditionStart text cursor = ('(' :: rest, start) ∧
        readPieces 1 start.line rest start.units = .ok (pieces, after, left) ∧ trim after = [] ∧
        joinPieces pieces = condition ∧ condition ≠ [] ∧
        openBlock .missingBraceAfterCondition left = .ok opened := by
  constructor
  · intro h
    unfold readCondition at h
    split at h
    · next rest start hstart =>
      split at h
      · cases h
      · next pieces after left hp =>
        dsimp only at h
        split at h
        · cases h
        · next hafter =>
          split at h
          · cases h
          · next hempty =>
            obtain ⟨opened, ho, h⟩ := map_eq_ok.1 h
            cases h
            exact ⟨rest, start, pieces, after, left, hstart, hp, by simpa using hafter, rfl,
              by simpa using hempty, ho⟩
    · cases h
  · rintro ⟨rest, start, pieces, after, left, hstart, hp, ha, rfl, hn, ho⟩
    simp [readCondition, hstart, hp, ha, hn, ho, Except.map]

theorem exists_of_readBranch {cursor : UnitCursor}
    (h : readBranch keyword line text cursor = .ok (branch, left)) :
    ∃ opened, readCondition keyword text cursor = .ok (branch.condition, opened) ∧
      readBlock 0 opened.line opened.units = .ok (branch.body, left) ∧ branch.line = line := by
  unfold readBranch at h
  split at h
  · cases h
  · next condition opened hc =>
    obtain ⟨⟨body, left⟩, hb, h⟩ := map_eq_ok.1 h
    cases h
    exact ⟨opened, hc, hb, rfl⟩

/-- A chain that ends with `else` has the block in braces after it, and no brace too many. -/
theorem exists_of_else {cursor : UnitCursor} {chain : Chain}
    (h : (do
      let opened ← openBlock .missingBraceAfterElse cursor
      let (body, left) ← readBlock 0 opened.line opened.units
      match left.units.head? with
      | some next =>
        if next.text = closingBrace then .error (fault .unmatchedBrace next.line)
        else .ok ⟨[], some body, left⟩
      | none => .ok ⟨[], some body, left⟩) = Except.ok (ε := Diagnostic) chain) :
    ∃ opened body left, openBlock .missingBraceAfterElse cursor = .ok opened ∧
      readBlock 0 opened.line opened.units = .ok (body, left) ∧
      (∀ next ∈ left.units.head?, next.text ≠ closingBrace) ∧
      chain = ⟨[], some body, left⟩ := by
  obtain ⟨opened, ho, h⟩ := bind_eq_ok.1 h
  obtain ⟨⟨body, left⟩, hb, h⟩ := bind_eq_ok.1 h
  refine ⟨opened, body, left, ho, hb, ?_⟩
  dsimp only at h
  split at h
  · next next hn =>
    split at h
    · cases h
    · next hc =>
      refine ⟨?_, (Except.ok.inj h).symm⟩
      rw [hn]
      rintro _ ⟨⟩
      exact hc
  · next hn =>
    refine ⟨?_, (Except.ok.inj h).symm⟩
    rw [hn]
    rintro _ ⟨⟩

/-- The parentheses of a condition are balanced. -/
theorem balanced_of_readCondition {cursor : UnitCursor}
    (h : readCondition keyword text cursor = .ok (condition, opened)) : Balanced condition := by
  obtain ⟨_, _, pieces, _, _, -, hp, -, rfl, -⟩ := readCondition_eq_ok.1 h
  have hb := openAfter_of_readPieces hp
  refine balanced_of_openAfter ?_
  rwa [← openAfter_filter, filter_joinPieces, openAfter_filter]

theorem balanced_of_readBranch {cursor : UnitCursor}
    (h : readBranch keyword line text cursor = .ok (branch, left)) :
    Balanced branch.condition := by
  obtain ⟨opened, hc, -⟩ := exists_of_readBranch h
  exact balanced_of_readCondition hc

theorem balanced_of_readChain {cursor : UnitCursor} {chain : Chain}
    (h : readChain cursor = .ok chain) : ∀ branch ∈ chain.branches, Balanced branch.condition := by
  fun_induction readChain cursor generalizing chain with
  | case1 | case4 =>
    cases h
    exact List.forall_mem_nil _
  | case2 | case5 => cases h
  | case3 unit rest line _ _ =>
    obtain ⟨opened, body, left, -, -, -, rfl⟩ := exists_of_else h
    exact List.forall_mem_nil _
  | case6 _ _ _ _ _ _ _ branch left hb ih =>
    obtain ⟨inner, hc, rfl⟩ := map_eq_ok.1 h
    exact List.forall_mem_cons.2 ⟨balanced_of_readBranch hb, ih hc⟩

/-! ## Drafts -/

/-- The texts of the conditions, in order. -/
def Draft.conditions : Draft → List (List Char)
  | .done | .broken _ => []
  | .equation _ _ rest => rest.conditions
  | .branch condition _ yes no rest =>
    condition :: yes.conditions ++ no.conditions ++ rest.conditions
  | .loop condition _ body rest => condition :: body.conditions ++ rest.conditions

/-- Every condition of a draft is balanced. -/
def Draft.Balanced (draft : Draft) : Prop :=
  ∀ condition ∈ draft.conditions, FormulaScript.Balanced condition

theorem Draft.balanced_ofChain {rest otherwise : Draft} {branches : List (List Char × Nat × Draft)}
    (hr : rest.Balanced) (ho : otherwise.Balanced)
    (hb : ∀ branch ∈ branches, FormulaScript.Balanced branch.1 ∧ branch.2.2.Balanced) :
    (Draft.ofChain rest otherwise branches).Balanced := by
  induction branches generalizing rest with
  | nil => exact ho
  | cons branch branches ih =>
    obtain ⟨condition, line, yes⟩ := branch
    obtain ⟨⟨hc, hy⟩, hb⟩ := List.forall_mem_cons.1 hb
    have hdone : Draft.done.Balanced := List.forall_mem_nil _
    have hn := ih hdone hb
    exact List.forall_mem_cons.2 ⟨hc, List.forall_mem_append.2
      ⟨List.forall_mem_append.2 ⟨hy, hn⟩, hr⟩⟩

/-- Every condition that is cut out of a script is balanced. -/
theorem balanced_draft (topLevel : Bool) (line : Nat) (pieces : List (List Char))
    (units : List SourceUnit) : (draft topLevel line pieces units).Balanced := by
  fun_induction draft topLevel line pieces units with
  | case8 _ _ _ unit rest _ text _ _ first left hb chain hc yes others lastLine otherwise after
      ihy ihb iho ihr =>
    have hotherwise : otherwise.Balanced := by
      unfold otherwise
      split
      · exact List.forall_mem_nil _
      · next body ho => exact iho body ho
    refine Draft.balanced_ofChain ihr hotherwise
      (List.forall_mem_cons.2 ⟨⟨balanced_of_readBranch hb, ihy⟩, ?_⟩)
    intro other ho
    obtain ⟨⟨branch, hm⟩, -, rfl⟩ := List.mem_map.1 ho
    exact ⟨balanced_of_readChain hc branch hm, ihb branch hm⟩
  | case11 _ _ _ unit rest _ text _ _ _ branch left hb ihb ihr =>
    exact List.forall_mem_cons.2 ⟨balanced_of_readBranch hb, List.forall_mem_append.2 ⟨ihb, ihr⟩⟩
  | case12 | case13 | case14 => assumption
  | _ => exact List.forall_mem_nil _

end FormulaScript.Script
