import FormulaScript.Proofs.Script.Pieces
import FormulaScript.Proofs.Script.Texts

/-!
# Reading units

Each reader of the block structure, on the units of the part of a script that it is for.
-/

namespace FormulaScript.Script

open Text

theorem append_semicolon_ne {text other : List Char} (h : other.getLast? ≠ some ';') :
    text ++ [';'] ≠ other := by
  rintro rfl
  exact h List.getLast?_concat

/-! ## Blocks -/

/-- Units that close the blocks that they open, and no others. -/
def Enclosed (units : List SourceUnit) : Prop :=
  ∀ depth line rest, ∃ line', readBlock depth line (units ++ rest) =
    (readBlock depth line' rest).map fun (body, cursor) => (units ++ body, cursor)

theorem enclosed_nil : Enclosed [] := fun depth line rest => by
  refine ⟨line, ?_⟩
  cases h : readBlock depth line rest <;> simp [h, Except.map]

theorem Enclosed.append (ha : Enclosed a) (hb : Enclosed b) : Enclosed (a ++ b) :=
  fun depth line rest => by
    obtain ⟨line', ha⟩ := ha depth line (b ++ rest)
    obtain ⟨line'', hb⟩ := hb depth line' rest
    refine ⟨line'', ?_⟩
    rw [List.append_assoc, ha, hb]
    cases readBlock depth line'' rest <;> simp [Except.map]

theorem enclosed_singleton {text : List Char} (ho : text ≠ openingBrace)
    (hc : text ≠ closingBrace) (line : Nat) : Enclosed [⟨line, text⟩] := fun depth start rest => by
  refine ⟨line, ?_⟩
  simp only [List.singleton_append, readBlock, if_neg ho, if_neg hc]

theorem Enclosed.braces (h : Enclosed body) (line line' : Nat) :
    Enclosed (⟨line, openingBrace⟩ :: body ++ [⟨line', closingBrace⟩]) := fun depth start rest => by
  obtain ⟨line'', h⟩ := h (depth + 1) line (⟨line', closingBrace⟩ :: rest)
  refine ⟨line', ?_⟩
  have hne : openingBrace ≠ closingBrace := by decide
  have ho : readBlock depth start
      (⟨line, openingBrace⟩ :: (body ++ ⟨line', closingBrace⟩ :: rest)) =
      (readBlock (depth + 1) line (body ++ ⟨line', closingBrace⟩ :: rest)).map
        fun (inner, cursor) => (⟨line, openingBrace⟩ :: inner, cursor) := by
    simp [readBlock, hne]
  have hc : readBlock (depth + 1) line'' (⟨line', closingBrace⟩ :: rest) =
      (readBlock depth line' rest).map
        fun (inner, cursor) => (⟨line', closingBrace⟩ :: inner, cursor) := by
    simp [readBlock]
  have hl : ⟨line, openingBrace⟩ :: body ++ [⟨line', closingBrace⟩] ++ rest =
      ⟨line, openingBrace⟩ :: (body ++ ⟨line', closingBrace⟩ :: rest) := by
    simp
  rw [hl, ho, h, hc]
  cases readBlock depth line' rest <;> simp [Except.map]

/-- A block is read up to the brace that closes it. -/
theorem Enclosed.readBlock_eq (h : Enclosed body) (line line' : Nat) (rest : List SourceUnit) :
    readBlock 0 line (body ++ ⟨line', closingBrace⟩ :: rest) = .ok (body, ⟨rest, line'⟩) := by
  obtain ⟨line'', h⟩ := h 0 line (⟨line', closingBrace⟩ :: rest)
  rw [h]
  simp [readBlock, Except.map]

/-! ## Conditions -/

theorem foldr_cons_closed (text before after : List Char) :
    text.foldr Scan.cons (.closed before after) = .closed (text ++ before) after := by
  induction text with
  | nil => rfl
  | cons c text ih => rw [List.foldr_cons, ih]; rfl

theorem scanParentheses_append {text : List Char} (h : openAfter level text = some level')
    (rest : List Char) :
    scanParentheses (level + 1) (text ++ rest) =
      text.foldr Scan.cons (scanParentheses (level' + 1) rest) := by
  induction text generalizing level with
  | nil =>
    cases h
    rfl
  | cons c text ih =>
    rw [List.cons_append, List.foldr_cons, scanParentheses]
    simp only [openAfter] at h
    split at h
    · next hc => rw [if_pos hc, ih h]
    · next ho =>
      rw [if_neg ho]
      split at h
      · next hc =>
        cases level with
        | zero => cases h
        | succ level => rw [if_pos hc, if_neg (by omega), ← ih h, Nat.add_sub_cancel]
      · next hc => rw [if_neg hc, ih h]

/-- The parenthesis after a text that closes all but one of the open ones closes that one. -/
theorem scanParentheses_closed {text : List Char} (h : openAfter level text = some 0)
    (rest : List Char) : scanParentheses (level + 1) (text ++ ')' :: rest) = .closed text rest := by
  have hc : scanParentheses 1 (')' :: rest) = .closed [] rest := by simp [scanParentheses]
  rw [scanParentheses_append h, hc, foldr_cons_closed, List.append_nil]

/-- The parenthesis after a balanced text closes the one in front of it. -/
theorem scanParentheses_balanced {text : List Char} (h : Balanced text) :
    scanParentheses 1 (text ++ [')']) = .closed text [] :=
  scanParentheses_closed (h 0) []

theorem readPieces_balanced {text : List Char} (h : Balanced text) (line : Nat)
    (units : List SourceUnit) :
    readPieces 1 line (text ++ [')']) units = .ok ([text], [], ⟨units, line⟩) := by
  cases units <;> simp [readPieces, scanParentheses_balanced h]

theorem joinPieces_singleton {text : List Char} (h : trim text ≠ []) :
    joinPieces [text] = trim text := by
  simp [joinPieces, h, List.intercalate]

theorem readCondition_joined {condition : List Char} (hb : Balanced condition)
    (hn : trim condition ≠ []) (word : String) (line line' : Nat) (rest : List SourceUnit) :
    readCondition word ('(' :: condition ++ [')']) ⟨⟨line, openingBrace⟩ :: rest, line'⟩ =
      .ok (trim condition, ⟨rest, line⟩) := by
  have ht : trim [] = [] := rfl
  simp [readCondition, conditionStart, readPieces_balanced hb, joinPieces_singleton hn, hn, ht,
    openBlock, Except.map]

theorem readCondition_split {condition : List Char} (hb : Balanced condition)
    (hn : trim condition ≠ []) (word : String) (line line' line'' : Nat)
    (rest : List SourceUnit) :
    readCondition word []
        ⟨⟨line, '(' :: condition ++ [')']⟩ :: ⟨line', openingBrace⟩ :: rest, line''⟩ =
      .ok (trim condition, ⟨rest, line'⟩) := by
  have ht : trim [] = [] := rfl
  simp [readCondition, conditionStart, readPieces_balanced hb, joinPieces_singleton hn, hn, ht,
    openBlock, Except.map]

/-! ## Headers -/

theorem readBranch_eq {cursor opened : UnitCursor} {body : List SourceUnit}
    (hc : readCondition word text cursor = .ok (condition, opened))
    (hb : readBlock 0 opened.line opened.units = .ok (body, left)) (line : Nat) :
    readBranch word line text cursor = .ok (⟨condition, line, body⟩, left) := by
  simp [readBranch, hc, hb, Except.map]

/-- The first unit of a header is its word and some more, which starts the condition or leaves it to
the other units. A branch is read from there to the brace that closes the block. -/
structure Header (word : String) (condition : List Char) (body : List SourceUnit)
    (unit : SourceUnit) (others : List SourceUnit) (more : List Char) : Prop where
  text : unit.text = word.toList ++ more
  parenthesis : ∀ c ∈ (trim more).head?, c = '('
  boundary : ∀ c ∈ more.head?, isBlank c ∨ c = '('
  branch : ∀ keyword start line line' rest, readBranch keyword start (trim more)
    ⟨others ++ ⟨line, openingBrace⟩ :: body ++ ⟨line', closingBrace⟩ :: rest, unit.line⟩ =
      .ok (⟨trim condition, start, body⟩, ⟨rest, line'⟩)

theorem Headed.exists_header (h : Headed word condition head) (hc : Balanced condition)
    (hn : trim condition ≠ []) (hb : Enclosed body) :
    ∃ unit others more, head = unit :: others ∧ Header word condition body unit others more := by
  cases h with
  | @joined blanks line hblanks =>
    have ht : trim (blanks ++ '(' :: condition ++ [')']) = '(' :: condition ++ [')'] := by
      rw [trim, List.append_assoc, trimLeft_append_of_blank hblanks, List.cons_append,
        trimLeft_cons (by decide), ← List.cons_append, trimRight_append (by decide)]
    refine ⟨_, [], blanks ++ '(' :: condition ++ [')'], rfl, by simp, ?_, ?_, ?_⟩
    · rw [ht]
      rintro c ⟨⟩
      rfl
    · cases blanks with
      | nil =>
        rintro c ⟨⟩
        exact .inr rfl
      | cons b blanks =>
        rintro c ⟨⟩
        exact .inl (hblanks _ List.mem_cons_self)
    · intro keyword start line line' rest
      rw [ht, List.nil_append, List.cons_append]
      exact readBranch_eq (readCondition_joined hc hn ..) (hb.readBlock_eq ..) start
  | split line line' =>
    refine ⟨_, _, [], rfl, (List.append_nil _).symm, by simp [trim_of_blank], by simp, ?_⟩
    intro keyword start line line' rest
    exact readBranch_eq (readCondition_split hc hn ..) (hb.readBlock_eq ..) start

section

variable {condition more : List Char} {unit : SourceUnit} {others body : List SourceUnit}

theorem Header.afterKeyword (h : Header word condition body unit others more) :
    afterKeyword word unit.text = some (trim more) := by
  have hp : word.toList.isPrefixOf (word.toList ++ more) :=
    List.isPrefixOf_iff_prefix.2 (List.prefix_append _ _)
  have hm := h.parenthesis
  rw [h.text, Script.afterKeyword, if_pos hp, drop_word]
  cases hc : trim more with
  | nil => rfl
  | cons c left =>
    rw [hc] at hm
    cases hm c rfl
    rfl

theorem Header.afterElseIf (h : Header "else if" condition body unit others more) :
    afterElseIf unit.text = some (trim more) := by
  have hh : more.head?.all (fun c => isBlank c || c = '(') = true := by
    cases more with
    | nil => rfl
    | cons c more => simpa using h.boundary c rfl
  have hw : trimLeft (" if".toList ++ more) = "if".toList ++ more := rfl
  have hd : ("else if".toList ++ more).drop "else".length = " if".toList ++ more := rfl
  have hp : "else".toList.isPrefixOf ("else if".toList ++ more) := rfl
  have hi : "if".toList.isPrefixOf ("if".toList ++ more) := rfl
  have hdi : ("if".toList ++ more).drop "if".length = more := rfl
  have hlt : ("if".toList ++ more).length < (" if".toList ++ more).length := by
    rw [List.length_append, List.length_append]
    exact Nat.add_lt_add_right (by decide) _
  rw [h.text, Script.afterElseIf, if_pos hp, hd]
  dsimp only
  rw [hw, hdi, hh, hi, decide_eq_true hlt]
  rfl

end

/-! ## Chains -/

/-- No branch of an `if` and no closing brace comes first. -/
def Follows (units : List SourceUnit) : Prop :=
  ∀ unit ∈ units.head?,
    unit.text ≠ closingBrace ∧ unit.text ≠ "else".toList ∧ afterElseIf unit.text = none

theorem readChain_follows {units : List SourceUnit} (h : Follows units) (line : Nat) :
    readChain ⟨units, line⟩ = .ok ⟨[], none, ⟨units, line⟩⟩ := by
  cases units with
  | nil => rw [readChain]
  | cons unit rest =>
    obtain ⟨hc, he, hi⟩ := h unit rfl
    rw [readChain, if_neg hc, if_neg he]
    split
    · rfl
    · simp_all

theorem readChain_else {body rest : List SourceUnit} (hb : Enclosed body) (h : Follows rest)
    (line line' line'' start : Nat) :
    readChain ⟨⟨line, "else".toList⟩ :: ⟨line', openingBrace⟩ :: body ++
        ⟨line'', closingBrace⟩ :: rest, start⟩ = .ok ⟨[], some body, ⟨rest, line''⟩⟩ := by
  have hne : "else".toList ≠ closingBrace := by decide
  have ho : openBlock .missingBraceAfterElse
      ⟨⟨line', openingBrace⟩ :: body ++ ⟨line'', closingBrace⟩ :: rest, line⟩ =
        .ok ⟨body ++ ⟨line'', closingBrace⟩ :: rest, line'⟩ := rfl
  rw [List.cons_append, readChain, if_neg hne, if_pos rfl, ho]
  simp only [bind, Except.bind, hb.readBlock_eq]
  cases rest with
  | nil => rfl
  | cons unit rest => simp [(h unit rfl).1]

/-- What follows a branch is read by its first unit. -/
theorem readChain_cons (unit : SourceUnit) (rest : List SourceUnit) (line : Nat) :
    readChain ⟨unit :: rest, line⟩ =
      if unit.text = closingBrace then .error (fault .unmatchedBrace unit.line)
      else if unit.text = "else".toList then do
        let opened ← openBlock .missingBraceAfterElse ⟨rest, unit.line⟩
        let (body, left) ← readBlock 0 opened.line opened.units
        match left.units.head? with
        | some next =>
          if next.text = closingBrace then .error (fault .unmatchedBrace next.line)
          else .ok ⟨[], some body, left⟩
        | none => .ok ⟨[], some body, left⟩
      else
        match afterElseIf unit.text with
        | none => .ok ⟨[], none, ⟨unit :: rest, line⟩⟩
        | some text => do
          let (branch, left) ← readBranch "else if" unit.line text ⟨rest, unit.line⟩
          let chain ← readChain left
          return { chain with branches := branch :: chain.branches } := by
  rw [readChain]
  split
  · rfl
  · split
    · rfl
    · cases afterElseIf unit.text with
      | none => rfl
      | some text =>
        dsimp only
        split
        · next hb => rw [hb]; rfl
        · next branch left hb =>
          rw [hb]
          cases hc : readChain left <;> simp [bind, Except.bind, Except.map, pure, Except.pure, hc]

theorem readChain_elseIf {unit : SourceUnit} {rest : List SourceUnit} {chain : Chain}
    (hi : afterElseIf unit.text = some text)
    (hb : readBranch "else if" unit.line text ⟨rest, unit.line⟩ = .ok (branch, left))
    (hc : readChain left = .ok chain) (start : Nat) :
    readChain ⟨unit :: rest, start⟩ =
      .ok { chain with branches := branch :: chain.branches } := by
  have hne : unit.text ≠ closingBrace ∧ unit.text ≠ "else".toList := by
    refine ⟨fun h => ?_, fun h => ?_⟩
    · have hn : afterElseIf closingBrace = none := by decide
      cases hn.symm.trans (h ▸ hi)
    · have hn : afterElseIf "else".toList = none := by decide
      cases hn.symm.trans (h ▸ hi)
  rw [readChain_cons, if_neg hne.1, if_neg hne.2, hi]
  dsimp only
  rw [hb]
  simp only [bind, Except.bind, hc]
  rfl

/-! ## Drafts -/

theorem draft_nil (topLevel : Bool) (line : Nat) : draft topLevel line [] [] = .done := by
  simp [draft]

/-- The draft of what follows the first branch of an `if`. -/
def Chain.draft (chain : Chain) (lastLine : Nat) : Draft :=
  Draft.ofChain .done (chain.otherwise.elim .done (Script.draft false lastLine []))
    (chain.branches.map fun branch =>
      (branch.condition, branch.line, Script.draft false branch.line [] branch.body))

/-- The statements of a block are read by their first unit. -/
theorem draft_cons (topLevel : Bool) (line : Nat) (pieces : List (List Char)) (unit : SourceUnit)
    (rest : List SourceUnit) :
    draft topLevel line pieces (unit :: rest) =
      if unit.text = closingBrace then .broken (fault .unmatchedBrace unit.line)
      else
        match afterKeyword "if" unit.text, afterKeyword "while" unit.text with
        | some text, _ =>
          if !pieces.isEmpty then .broken (fault (.missingSemicolon .ifKeyword) unit.line)
          else
            match readBranch "if" unit.line text ⟨rest, unit.line⟩ with
            | .error problem => .broken problem
            | .ok (first, left) =>
              match readChain left with
              | .error problem => .broken problem
              | .ok chain =>
                .branch first.condition unit.line (draft false unit.line [] first.body)
                  (chain.draft ((chain.branches.getLast?.map Branch.line).getD unit.line))
                  (draft topLevel chain.cursor.line [] chain.cursor.units)
        | none, some text =>
          if !pieces.isEmpty then .broken (fault (.missingSemicolon .whileKeyword) unit.line)
          else
            match readBranch "while" unit.line text ⟨rest, unit.line⟩ with
            | .error problem => .broken problem
            | .ok (branch, left) =>
              .loop branch.condition unit.line (draft false unit.line [] branch.body)
                (draft topLevel left.line [] left.units)
        | none, none =>
          if unit.text.getLast? = some ';' then
            let text := joinPieces (pieces ++ [unit.text.dropLast])
            if text.isEmpty then draft topLevel unit.line [] rest
            else .equation text unit.line (draft topLevel unit.line [] rest)
          else draft topLevel unit.line (pieces ++ [unit.text]) rest := by
  rw [draft]
  split
  · rfl
  cases afterKeyword "if" unit.text with
  | some text =>
    dsimp only
    split
    · rfl
    · split
      · next hb => rw [hb]
      · next first left hb =>
        rw [hb]
        dsimp only
        split
        · next hc => rw [hc]
        · next chain hc =>
          rw [hc]
          have ha : chain.branches.attach.map (fun branch => (branch.1.condition, branch.1.line,
              draft false branch.1.line [] branch.1.body)) = chain.branches.map fun branch =>
                (branch.condition, branch.line, draft false branch.line [] branch.body) :=
            List.attach_map_val (f := fun branch : Branch =>
              (branch.condition, branch.line, draft false branch.line [] branch.body))
          dsimp only
          rw [ha, Draft.ofChain, Chain.draft]
          cases chain.otherwise <;> rfl
  | none =>
    cases afterKeyword "while" unit.text with
    | some text =>
      dsimp only
      split
      · rfl
      · split
        · next hb => rw [hb]
        · next hb => rw [hb]
    | none => rfl

theorem draft_statement {unit : SourceUnit} (hu : unit.text = text ++ [';'])
    (hi : afterKeyword "if" unit.text = none) (hw : afterKeyword "while" unit.text = none)
    (hn : joinPieces (pieces ++ [text]) ≠ []) (topLevel : Bool) (line : Nat)
    (rest : List SourceUnit) :
    draft topLevel line pieces (unit :: rest) =
      .equation (joinPieces (pieces ++ [text])) unit.line (draft topLevel unit.line [] rest) := by
  have hc : unit.text ≠ closingBrace := hu ▸ append_semicolon_ne (by decide)
  have hlast : unit.text.getLast? = some ';' := by simp [hu]
  have hd : unit.text.dropLast = text := by simp [hu]
  rw [draft_cons, if_neg hc, hi, hw]
  dsimp only
  rw [if_pos hlast, hd, if_neg (by simpa using hn)]

theorem draft_equation {unit : SourceUnit} (hu : unit.text = text ++ [';'])
    (hi : afterKeyword "if" unit.text = none) (hw : afterKeyword "while" unit.text = none)
    (hn : trim text ≠ []) (topLevel : Bool) (line : Nat) (rest : List SourceUnit) :
    draft topLevel line [] (unit :: rest) =
      .equation (trim text) unit.line (draft topLevel unit.line [] rest) := by
  have hj : joinPieces ([] ++ [text]) = trim text := joinPieces_singleton hn
  rw [draft_statement hu hi hw (hj ▸ hn), hj]

theorem draft_branch {unit : SourceUnit} {rest : List SourceUnit} {chain : Chain}
    (hc : unit.text ≠ closingBrace) (hi : afterKeyword "if" unit.text = some text)
    (hb : readBranch "if" unit.line text ⟨rest, unit.line⟩ = .ok (first, left))
    (hch : readChain left = .ok chain) (topLevel : Bool) (line : Nat) :
    ∃ lastLine, draft topLevel line [] (unit :: rest) =
      .branch first.condition unit.line (draft false unit.line [] first.body)
        (chain.draft lastLine) (draft topLevel chain.cursor.line [] chain.cursor.units) := by
  refine ⟨(chain.branches.getLast?.map Branch.line).getD unit.line, ?_⟩
  rw [draft_cons, if_neg hc, hi]
  dsimp only
  rw [if_neg (by simp), hb]
  dsimp only
  rw [hch]

theorem draft_loop {unit : SourceUnit} {rest : List SourceUnit}
    (hc : unit.text ≠ closingBrace) (hi : afterKeyword "if" unit.text = none)
    (hw : afterKeyword "while" unit.text = some text)
    (hb : readBranch "while" unit.line text ⟨rest, unit.line⟩ = .ok (branch, left))
    (topLevel : Bool) (line : Nat) :
    draft topLevel line [] (unit :: rest) =
      .loop branch.condition unit.line (draft false unit.line [] branch.body)
        (draft topLevel left.line [] left.units) := by
  rw [draft_cons, if_neg hc, hi, hw]
  dsimp only
  rw [if_neg (by simp), hb]

end FormulaScript.Script
