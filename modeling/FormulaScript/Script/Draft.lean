import FormulaScript.Diagnostic
import FormulaScript.Script.Source

/-! The block structure of a script, found from its units before any expression is parsed. A `Draft`
holds the texts of the statements and conditions. Each block is read up to its own end or to the
first fault in it; a chain of `if`, `else if` and `else` counts only once it is read to its end and
no stray brace follows it. -/

namespace FormulaScript.Script

open Text

/-- The units that are left to read, and the line of the last one read. -/
structure UnitCursor where
  units : List SourceUnit
  line : Nat

/-- The text of a unit that opens a block. -/
def openingBrace : List Char := ['{']

/-- The text of a unit that closes a block. -/
def closingBrace : List Char := ['}']

/-- A fault on a line. -/
def fault (problem : Problem) (line : Nat) : Diagnostic := ⟨problem, some line, none⟩

/-! ## Blocks -/

/-- Reads the units of a block up to the brace that closes it, with `depth` inner blocks open. -/
def readBlock (depth : Nat) (line : Nat) :
    List SourceUnit → Except Diagnostic (List SourceUnit × UnitCursor)
  | [] => .error (fault .unbalancedBraces line)
  | unit :: rest =>
    if unit.text = closingBrace then
      match depth with
      | 0 => .ok ([], ⟨rest, unit.line⟩)
      | depth + 1 =>
        (readBlock depth unit.line rest).map fun (body, cursor) => (unit :: body, cursor)
    else
      let depth := if unit.text = openingBrace then depth + 1 else depth
      (readBlock depth unit.line rest).map fun (body, cursor) => (unit :: body, cursor)

theorem readBlock_length {depth line : Nat} {units body : List SourceUnit} {cursor : UnitCursor}
    (h : readBlock depth line units = .ok (body, cursor)) :
    body.length + cursor.units.length < units.length := by
  induction units generalizing depth line body with
  | nil => simp [readBlock] at h
  | cons unit rest ih =>
    have step : ∀ {d}, (readBlock d unit.line rest).map
        (fun (body, cursor) => (unit :: body, cursor)) = .ok (body, cursor) →
        body.length + cursor.units.length < (unit :: rest).length := by
      intro d h
      cases hb : readBlock d unit.line rest with
      | error _ => simp [hb, Except.map] at h
      | ok result =>
        obtain ⟨inner, left⟩ := result
        simp only [hb, Except.map, Except.ok.injEq, Prod.mk.injEq] at h
        obtain ⟨rfl, rfl⟩ := h
        have := ih hb
        simp only [List.length_cons]
        omega
    unfold readBlock at h
    split at h
    · split at h
      · simp only [Except.ok.injEq, Prod.mk.injEq] at h
        obtain ⟨rfl, rfl⟩ := h
        simp
      · exact step h
    · exact step h

/-- Reads the brace that opens a block. -/
def openBlock (problem : Problem) (cursor : UnitCursor) : Except Diagnostic UnitCursor :=
  match cursor.units with
  | [] => .error (fault problem cursor.line)
  | unit :: rest =>
    if unit.text = openingBrace then .ok ⟨rest, unit.line⟩ else .error (fault problem unit.line)

theorem openBlock_length {problem : Problem} {cursor opened : UnitCursor}
    (h : openBlock problem cursor = .ok opened) :
    opened.units.length < cursor.units.length := by
  unfold openBlock at h
  split at h
  · simp at h
  · next heq =>
    split at h
    · simp only [Except.ok.injEq] at h
      subst h
      simp [heq]
    · simp at h

/-! ## Conditions -/

/-- What follows a keyword, without blanks at its ends, if it is nothing or starts with an opening
parenthesis. -/
def afterKeyword (keyword : String) (text : List Char) : Option (List Char) :=
  if keyword.toList.isPrefixOf text then
    let rest := trim (text.drop keyword.length)
    if rest.isEmpty || rest.head? = some '(' then some rest else none
  else none

/-- What follows the two words of an `else if`, without blanks at its ends. -/
def afterElseIf (text : List Char) : Option (List Char) :=
  if "else".toList.isPrefixOf text then
    let gap := text.drop "else".length
    let word := trimLeft gap
    let rest := word.drop "if".length
    if word.length < gap.length && "if".toList.isPrefixOf word &&
        rest.head?.all (fun c => isBlank c || c = '(') then some (trim rest)
    else none
  else none

/-- Where the parentheses that are open in front of a text are closed in it. -/
inductive Scan
  /-- The text before and after the parenthesis that closes them. -/
  | closed (before after : List Char)
  /-- The number of parentheses that are open at the end of the text. -/
  | unclosed (level : Nat)

/-- The scan of a text with a character in front. -/
def Scan.cons (c : Char) : Scan → Scan
  | closed before after => closed (c :: before) after
  | unclosed level => unclosed level

/-- Looks for the parenthesis that closes all of `level` open ones. -/
def scanParentheses (level : Nat) : List Char → Scan
  | [] => .unclosed level
  | c :: rest =>
    if c = '(' then (scanParentheses (level + 1) rest).cons c
    else if c = ')' then
      if level ≤ 1 then .closed [] rest else (scanParentheses (level - 1) rest).cons c
    else (scanParentheses level rest).cons c

/-- The pieces of a text that goes over several units, each without blanks at its ends, with one
space between those that are not empty. -/
def joinPieces (pieces : List (List Char)) : List Char :=
  [' '].intercalate ((pieces.map trim).filter (!·.isEmpty))

/-- Reads a text, unit after unit, up to the parenthesis that closes all of `level` open ones. Gives
the pieces before it, and what follows it on its unit. -/
def readPieces (level : Nat) (line : Nat) (text : List Char) :
    List SourceUnit → Except Diagnostic (List (List Char) × List Char × UnitCursor)
  | [] =>
    match scanParentheses level text with
    | .closed before after => .ok ([before], after, ⟨[], line⟩)
    | .unclosed _ => .error (fault .unbalancedCondition line)
  | unit :: rest =>
    match scanParentheses level text with
    | .closed before after => .ok ([before], after, ⟨unit :: rest, line⟩)
    | .unclosed level =>
      (readPieces level unit.line unit.text rest).map fun (pieces, after, cursor) =>
        (text :: pieces, after, cursor)

theorem readPieces_length {level line : Nat} {text after : List Char} {units : List SourceUnit}
    {pieces : List (List Char)} {cursor : UnitCursor}
    (h : readPieces level line text units = .ok (pieces, after, cursor)) :
    cursor.units.length ≤ units.length := by
  induction units generalizing level line text pieces after with
  | nil =>
    unfold readPieces at h
    split at h
    · simp only [Except.ok.injEq, Prod.mk.injEq] at h
      obtain ⟨-, -, rfl⟩ := h
      simp
    · simp at h
  | cons unit rest ih =>
    unfold readPieces at h
    split at h
    · simp only [Except.ok.injEq, Prod.mk.injEq] at h
      obtain ⟨-, -, rfl⟩ := h
      simp
    · next level _ =>
      cases hr : readPieces level unit.line unit.text rest with
      | error _ => simp [hr, Except.map] at h
      | ok result =>
        obtain ⟨inner, tail, left⟩ := result
        simp only [hr, Except.map, Except.ok.injEq, Prod.mk.injEq] at h
        obtain ⟨-, -, rfl⟩ := h
        have := ih hr
        simp only [List.length_cons]
        omega

/-- The text that a condition starts with: what follows the keyword, or the next unit. -/
def conditionStart (text : List Char) (cursor : UnitCursor) : List Char × UnitCursor :=
  if text.isEmpty then
    match cursor.units with
    | [] => ([], cursor)
    | unit :: rest => (unit.text, ⟨rest, unit.line⟩)
  else (text, cursor)

theorem conditionStart_length (text : List Char) (cursor : UnitCursor) :
    (conditionStart text cursor).2.units.length ≤ cursor.units.length := by
  unfold conditionStart
  split
  · split
    · exact Nat.le_refl _
    · next heq => simp [heq]
  · exact Nat.le_refl _

/-- Reads a condition in parentheses, given what follows its keyword, and the brace that opens the
block after it. -/
def readCondition (keyword : String) (text : List Char) (cursor : UnitCursor) :
    Except Diagnostic (List Char × UnitCursor) :=
  match conditionStart text cursor with
  | ('(' :: text, cursor) =>
    match readPieces 1 cursor.line text cursor.units with
    | .error problem => .error problem
    | .ok (pieces, after, cursor) =>
      let found := trim after
      let condition := joinPieces pieces
      if !found.isEmpty then
        .error (fault (.textAfterCondition (String.ofList found)) cursor.line)
      else if condition.isEmpty then .error (fault .emptyCondition cursor.line)
      else (openBlock .missingBraceAfterCondition cursor).map fun opened => (condition, opened)
  | (_, cursor) => .error (fault (.missingParenthesis keyword) cursor.line)

theorem readCondition_length {keyword : String} {text condition : List Char}
    {cursor opened : UnitCursor}
    (h : readCondition keyword text cursor = .ok (condition, opened)) :
    opened.units.length < cursor.units.length := by
  unfold readCondition at h
  split at h
  · next start began heq =>
    have hs : began.units.length ≤ cursor.units.length := by
      have := conditionStart_length text cursor
      rwa [heq] at this
    split at h
    · simp at h
    · next pieces after left hp =>
      have hl := readPieces_length hp
      simp only at h
      split at h
      · simp at h
      · split at h
        · simp at h
        · cases ho : openBlock .missingBraceAfterCondition left with
          | error _ => simp [ho, Except.map] at h
          | ok result =>
            simp only [ho, Except.map, Except.ok.injEq, Prod.mk.injEq] at h
            obtain ⟨-, rfl⟩ := h
            have := openBlock_length ho
            omega
  · simp at h

/-! ## Branches -/

/-- A condition with the units of its block. -/
structure Branch where
  condition : List Char
  line : Nat
  body : List SourceUnit

/-- Reads a condition and its block. -/
def readBranch (keyword : String) (line : Nat) (text : List Char) (cursor : UnitCursor) :
    Except Diagnostic (Branch × UnitCursor) :=
  match readCondition keyword text cursor with
  | .error problem => .error problem
  | .ok (condition, opened) =>
    (readBlock 0 opened.line opened.units).map fun (body, cursor) =>
      (⟨condition, line, body⟩, cursor)

theorem readBranch_length {keyword : String} {line : Nat} {text : List Char}
    {cursor left : UnitCursor} {branch : Branch}
    (h : readBranch keyword line text cursor = .ok (branch, left)) :
    branch.body.length + left.units.length < cursor.units.length := by
  unfold readBranch at h
  split at h
  · simp at h
  · next condition opened hc =>
    have := readCondition_length hc
    cases hb : readBlock 0 opened.line opened.units with
    | error _ => simp [hb, Except.map] at h
    | ok result =>
      simp only [hb, Except.map, Except.ok.injEq, Prod.mk.injEq] at h
      obtain ⟨rfl, rfl⟩ := h
      have := readBlock_length hb
      simp only
      omega

/-- What follows the first branch of an `if`: further branches, perhaps the units of an `else`
block, and the units after the whole chain. -/
structure Chain where
  branches : List Branch
  otherwise : Option (List SourceUnit)
  cursor : UnitCursor

/-- Reads what follows a branch of an `if`. No closing brace may follow the chain. -/
def readChain (cursor : UnitCursor) : Except Diagnostic Chain :=
  match cursor with
  | ⟨[], _⟩ => .ok ⟨[], none, cursor⟩
  | ⟨unit :: rest, _⟩ =>
    if unit.text = closingBrace then .error (fault .unmatchedBrace unit.line)
    else if unit.text = "else".toList then do
      let opened ← openBlock .missingBraceAfterElse ⟨rest, unit.line⟩
      let (body, left) ← readBlock 0 opened.line opened.units
      match left.units.head? with
      | some next =>
        if next.text = closingBrace then .error (fault .unmatchedBrace next.line)
        else .ok ⟨[], some body, left⟩
      | none => .ok ⟨[], some body, left⟩
    else
      match afterElseIf unit.text with
      | none => .ok ⟨[], none, cursor⟩
      | some text =>
        match _h : readBranch "else if" unit.line text ⟨rest, unit.line⟩ with
        | .error problem => .error problem
        | .ok (branch, left) =>
          (readChain left).map fun chain => { chain with branches := branch :: chain.branches }
termination_by cursor.units.length
decreasing_by
  have := readBranch_length _h
  simp only [List.length_cons] at this ⊢
  omega

theorem readChain_length {cursor : UnitCursor} {chain : Chain} (h : readChain cursor = .ok chain) :
    (∀ branch ∈ chain.branches, branch.body.length < cursor.units.length) ∧
    (∀ body ∈ chain.otherwise, body.length < cursor.units.length) ∧
    chain.cursor.units.length ≤ cursor.units.length := by
  fun_induction readChain cursor generalizing chain with
  | case1 => cases h; simp
  | case2 => simp at h
  | case3 unit rest line h₁ h₂ =>
    cases ho : openBlock .missingBraceAfterElse ⟨rest, unit.line⟩ with
    | error _ => simp [ho, bind, Except.bind] at h
    | ok opened =>
      have hl := openBlock_length ho
      cases hb : readBlock 0 opened.line opened.units with
      | error _ => simp [ho, hb, bind, Except.bind] at h
      | ok result =>
        obtain ⟨body, left⟩ := result
        have hr := readBlock_length hb
        simp only [ho, hb, bind, Except.bind] at h
        have : chain = ⟨[], some body, left⟩ := by
          split at h
          · split at h
            · simp at h
            · cases h; rfl
          · cases h; rfl
        subst this
        simp only [List.length_cons] at hl ⊢
        refine ⟨by simp, ?_, by omega⟩
        intro b hb
        cases hb
        omega
  | case4 => cases h; simp
  | case5 => simp at h
  | case6 unit rest line h₁ h₂ text ht branch left hb ih =>
    have hlen := readBranch_length hb
    cases hc : readChain left with
    | error _ => simp [hc, Except.map] at h
    | ok inner =>
      simp only [hc, Except.map, Except.ok.injEq] at h
      subst h
      obtain ⟨h1, h2, h3⟩ := ih hc
      simp only [List.length_cons] at hlen ⊢
      refine ⟨?_, fun b hb => by have := h2 b hb; omega, by omega⟩
      intro b hmem
      rcases List.mem_cons.1 hmem with rfl | hmem
      · omega
      · have := h1 b hmem
        omega

/-! ## Drafts -/

/-- The block structure of a script: its statements in order, with the texts of their expressions
and conditions and the lines that they are reported on. -/
inductive Draft
  /-- The end of a block. -/
  | done
  /-- A fault, at which the reading of the block has stopped. -/
  | broken (fault : Diagnostic)
  | equation (text : List Char) (line : Nat) (rest : Draft)
  /-- An `if`. One that follows an `else` is the only statement of its block. -/
  | branch (condition : List Char) (line : Nat) (yes no : Draft) (rest : Draft)
  /-- A `while`. -/
  | loop (condition : List Char) (line : Nat) (body : Draft) (rest : Draft)

/-- The draft of a chain of branches: each but the first is the `else` block of the one before. -/
def Draft.ofChain (rest : Draft) (otherwise : Draft) :
    List (List Char × Nat × Draft) → Draft
  | [] => otherwise
  | (condition, line, yes) :: others =>
    .branch condition line yes (ofChain .done otherwise others) rest

/-- Reads the statements of a block, after the pieces of a statement that is not complete. The text
of a statement may be spread over units; its last one ends with a semicolon. -/
def draft (topLevel : Bool) (line : Nat) (pieces : List (List Char)) (units : List SourceUnit) :
    Draft :=
  match units with
  | [] =>
    if pieces.isEmpty then .done
    else if topLevel then .broken (fault .unexpectedEndOfScript line)
    else .broken (fault (.missingSemicolon .closingBrace) line)
  | unit :: rest =>
    if unit.text = closingBrace then .broken (fault .unmatchedBrace unit.line)
    else
      match afterKeyword "if" unit.text, afterKeyword "while" unit.text with
      | some text, _ =>
        if !pieces.isEmpty then .broken (fault (.missingSemicolon .ifKeyword) unit.line)
        else
          match _hb : readBranch "if" unit.line text ⟨rest, unit.line⟩ with
          | .error problem => .broken problem
          | .ok (first, left) =>
            match _hc : readChain left with
            | .error problem => .broken problem
            | .ok chain =>
              let yes := draft false unit.line [] first.body
              let others := chain.branches.attach.map fun ⟨branch, _⟩ =>
                (branch.condition, branch.line, draft false branch.line [] branch.body)
              let lastLine := (chain.branches.getLast?.map Branch.line).getD unit.line
              let otherwise :=
                match _ho : chain.otherwise with
                | none => .done
                | some body => draft false lastLine [] body
              let after := draft topLevel chain.cursor.line [] chain.cursor.units
              Draft.ofChain after otherwise ((first.condition, unit.line, yes) :: others)
      | none, some text =>
        if !pieces.isEmpty then .broken (fault (.missingSemicolon .whileKeyword) unit.line)
        else
          match _hb : readBranch "while" unit.line text ⟨rest, unit.line⟩ with
          | .error problem => .broken problem
          | .ok (branch, left) =>
            .loop branch.condition unit.line (draft false unit.line [] branch.body)
              (draft topLevel left.line [] left.units)
      | none, none =>
        if unit.text.getLast? = some ';' then
          let text := joinPieces (pieces ++ [unit.text.dropLast])
          let after := draft topLevel unit.line [] rest
          if text.isEmpty then after else .equation text unit.line after
        else draft topLevel unit.line (pieces ++ [unit.text]) rest
termination_by units.length
decreasing_by
  all_goals simp only [List.length_cons]
  all_goals try have := readBranch_length _hb
  all_goals try have := readChain_length _hc
  all_goals grind

/-- The block structure of a script. -/
def Draft.ofScript (script : List Char) : Draft := draft true 1 [] (units script)

end FormulaScript.Script
