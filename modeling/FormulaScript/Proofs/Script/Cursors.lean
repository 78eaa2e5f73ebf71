import FormulaScript.Proofs.Script.Lines
import FormulaScript.Proofs.Script.Swaps

/-!
# What the readers of blocks leave

Each reader of the block structure takes units from the front and leaves the others, whatever these
are. Those that read a block have read its closing brace last.
-/

namespace FormulaScript.Script

open Text

/-! ## Units that are left -/

theorem openBlock_suffix {cursor opened : UnitCursor}
    (h : openBlock problem cursor = .ok opened) : opened.units <:+ cursor.units := by
  obtain ⟨unit, -, hu⟩ := exists_of_openBlock h
  exact hu ▸ List.suffix_cons unit opened.units

theorem readCondition_suffix {keyword : String} {text condition : List Char}
    {cursor opened : UnitCursor}
    (h : readCondition keyword text cursor = .ok (condition, opened)) :
    opened.units <:+ cursor.units := by
  obtain ⟨rest, start, pieces, after, left, hstart, hp, -, -, -, ho⟩ := readCondition_eq_ok.1 h
  have hs := conditionStart_suffix text cursor
  rw [hstart] at hs
  exact (openBlock_suffix ho).trans ((readPieces_suffix hp).trans hs)

/-- A block is read up to a closing brace. -/
theorem readBlock_eq_append {depth line : Nat} {units body : List SourceUnit} {cursor : UnitCursor}
    (h : readBlock depth line units = .ok (body, cursor)) :
    ∃ unit, unit.text = closingBrace ∧ units = body ++ unit :: cursor.units := by
  induction units generalizing depth line body with
  | nil => cases h
  | cons unit rest ih =>
    have step {d : Nat} (h : (readBlock d unit.line rest).map
        (fun result => (unit :: result.1, result.2)) = .ok (body, cursor)) :
        ∃ last, last.text = closingBrace ∧ unit :: rest = body ++ last :: cursor.units := by
      obtain ⟨⟨inner, left⟩, hb, h⟩ := map_eq_ok.1 h
      cases h
      obtain ⟨last, hl, rfl⟩ := ih hb
      exact ⟨last, hl, rfl⟩
    unfold readBlock at h
    split at h
    · next hc =>
      split at h
      · cases h
        exact ⟨unit, hc, rfl⟩
      · exact step h
    · exact step h

/-- The last unit that was read before those that are left is a closing brace. -/
def Closes (us vs : List SourceUnit) : Prop :=
  ∃ front unit, us = front ++ unit :: vs ∧ unit.text = closingBrace

variable {us vs more : List SourceUnit} {unit : SourceUnit}

theorem Closes.of_suffix (h : Closes us vs) (hs : us <:+ ws) : Closes ws vs := by
  obtain ⟨front, unit, rfl, hc⟩ := h
  obtain ⟨before, rfl⟩ := hs
  exact ⟨before ++ front, unit, by simp, hc⟩

theorem Closes.suffix (h : Closes us vs) : vs <:+ us := by
  obtain ⟨front, unit, rfl, -⟩ := h
  exact (List.suffix_cons unit vs).trans (List.suffix_append _ _)

theorem closes_readBlock {depth line : Nat} {body : List SourceUnit} {cursor : UnitCursor}
    (h : readBlock depth line us = .ok (body, cursor)) : Closes us cursor.units := by
  obtain ⟨unit, hc, hu⟩ := readBlock_eq_append h
  exact ⟨body, unit, hu, hc⟩

theorem closes_readBranch {keyword : String} {line : Nat} {text : List Char}
    {cursor left : UnitCursor} {branch : Branch}
    (h : readBranch keyword line text cursor = .ok (branch, left)) :
    Closes cursor.units left.units := by
  obtain ⟨opened, hc, hb, -⟩ := exists_of_readBranch h
  exact (closes_readBlock hb).of_suffix (readCondition_suffix hc)

/-- The `else` block that ends a chain. -/
theorem closes_readChain {cursor : UnitCursor} {chain : Chain} (h : readChain cursor = .ok chain) :
    chain.cursor.units = cursor.units ∨ Closes cursor.units chain.cursor.units := by
  fun_induction readChain cursor generalizing chain with
  | case1 | case4 =>
    cases h
    exact .inl rfl
  | case2 | case5 => cases h
  | case3 unit rest line _ _ =>
    obtain ⟨opened, body, left, ho, hb, -, rfl⟩ := exists_of_else h
    exact .inr ((closes_readBlock hb).of_suffix
      ((openBlock_suffix ho).trans (List.suffix_cons unit rest)))
  | case6 unit rest line _ _ text ht branch left hb ih =>
    obtain ⟨inner, hc, rfl⟩ := map_eq_ok.1 h
    have hbranch := (closes_readBranch hb).of_suffix (List.suffix_cons unit rest)
    rcases ih hc with heq | hcl
    · exact .inr (heq ▸ hbranch)
    · exact .inr (hcl.of_suffix hbranch.suffix)

/-! ## Units that follow -/

/-- The cursor with more units after those that are left. -/
def UnitCursor.followedBy (more : List SourceUnit) (cursor : UnitCursor) : UnitCursor :=
  ⟨cursor.units ++ more, cursor.line⟩

theorem readBlock_followedBy {depth line : Nat} {body : List SourceUnit} {cursor : UnitCursor}
    (h : readBlock depth line us = .ok (body, cursor)) (more : List SourceUnit) :
    readBlock depth line (us ++ more) = .ok (body, cursor.followedBy more) := by
  induction us generalizing depth line body with
  | nil => cases h
  | cons unit rest ih =>
    have step {d : Nat} (h : (readBlock d unit.line rest).map
        (fun result => (unit :: result.1, result.2)) = .ok (body, cursor)) :
        (readBlock d unit.line (rest ++ more)).map
          (fun result => (unit :: result.1, result.2)) = .ok (body, cursor.followedBy more) := by
      obtain ⟨⟨inner, left⟩, hb, h⟩ := map_eq_ok.1 h
      cases h
      rw [ih hb]
      rfl
    rw [List.cons_append]
    unfold readBlock at h ⊢
    split at h
    · next hc =>
      rw [if_pos hc]
      split at h
      · cases h
        rfl
      · exact step h
    · next hc =>
      rw [if_neg hc]
      exact step h

theorem openBlock_followedBy {cursor opened : UnitCursor}
    (h : openBlock problem cursor = .ok opened) (more : List SourceUnit) :
    openBlock problem (cursor.followedBy more) = .ok (opened.followedBy more) := by
  obtain ⟨us, line⟩ := cursor
  cases us with
  | nil => cases h
  | cons unit rest =>
    have hstep (us : List SourceUnit) : openBlock problem ⟨unit :: us, line⟩ =
        if unit.text = openingBrace then .ok ⟨us, unit.line⟩
        else .error (fault problem unit.line) := rfl
    rw [hstep] at h
    change openBlock problem ⟨unit :: (rest ++ more), line⟩ = _
    rw [hstep]
    split at h
    · next ho =>
      cases h
      rw [if_pos ho]
      rfl
    · cases h

theorem readPieces_followedBy {level line : Nat} {text after : List Char}
    {pieces : List (List Char)} {cursor : UnitCursor}
    (h : readPieces level line text us = .ok (pieces, after, cursor)) (more : List SourceUnit) :
    readPieces level line text (us ++ more) = .ok (pieces, after, cursor.followedBy more) := by
  induction us generalizing level line text pieces with
  | nil =>
    rw [readPieces] at h
    split at h
    · next hc =>
      cases h
      cases more <;> simp [readPieces, hc, UnitCursor.followedBy]
    · cases h
  | cons unit rest ih =>
    rw [readPieces] at h
    rw [List.cons_append, readPieces]
    split at h
    · cases h
      rfl
    · next left hl =>
      obtain ⟨⟨inner, tail, cursor'⟩, hr, h⟩ := map_eq_ok.1 h
      cases h
      simp [ih hr, Except.map]

theorem conditionStart_followedBy {text rest : List Char} {cursor start : UnitCursor}
    (h : conditionStart text cursor = (c :: rest, start)) (more : List SourceUnit) :
    conditionStart text (cursor.followedBy more) = (c :: rest, start.followedBy more) := by
  unfold conditionStart at h ⊢
  split at h
  · next he =>
    rw [if_pos he]
    obtain ⟨us, line⟩ := cursor
    cases us with
    | nil => cases h
    | cons unit others =>
      obtain ⟨ht, rfl⟩ := Prod.mk.inj h
      exact Prod.ext ht rfl
  · next he =>
    rw [if_neg he]
    cases h
    rfl

theorem readBranch_followedBy {keyword : String} {line : Nat} {text : List Char}
    {cursor left : UnitCursor} {branch : Branch}
    (h : readBranch keyword line text cursor = .ok (branch, left)) (more : List SourceUnit) :
    readBranch keyword line text (cursor.followedBy more) = .ok (branch, left.followedBy more) := by
  obtain ⟨opened, hc, hb, rfl⟩ := exists_of_readBranch h
  obtain ⟨rest, start, pieces, after, left', hstart, hp, ha, hj, hn, ho⟩ := readCondition_eq_ok.1 hc
  have hcondition : readCondition keyword text (cursor.followedBy more) =
      .ok (branch.condition, opened.followedBy more) :=
    readCondition_eq_ok.2 ⟨rest, start.followedBy more, pieces, after, left'.followedBy more,
      conditionStart_followedBy hstart more, readPieces_followedBy hp more, ha, hj, hn,
      openBlock_followedBy ho more⟩
  exact readBranch_eq hcondition (readBlock_followedBy hb more) branch.line

/-- A chain goes on in the units that follow only if none are left after it. -/
theorem readChain_followedBy {cursor : UnitCursor} {chain : Chain}
    (h : readChain cursor = .ok chain) (more : List SourceUnit)
    (hf : chain.cursor.units = [] → Follows more) :
    readChain (cursor.followedBy more) =
      .ok { chain with cursor := chain.cursor.followedBy more } := by
  fun_induction readChain cursor generalizing chain with
  | case1 line =>
    cases h
    exact readChain_follows (hf rfl) line
  | case2 | case5 => cases h
  | case3 unit rest line hne he =>
    obtain ⟨opened, body, left, ho, hb, hnext, rfl⟩ := exists_of_else h
    have ho := openBlock_followedBy ho more
    have hb := readBlock_followedBy hb more
    have hnext : ∀ next ∈ (left.units ++ more).head?, next.text ≠ closingBrace := by
      cases hl : left.units with
      | nil => exact fun next hm => (hf hl next hm).1
      | cons next others =>
        rintro _ ⟨⟩
        exact hnext next (hl ▸ rfl)
    change readChain ⟨unit :: (rest ++ more), line⟩ = _
    rw [readChain_cons, if_neg hne, if_pos he]
    change openBlock .missingBraceAfterElse ⟨rest ++ more, unit.line⟩ = _ at ho
    change readBlock 0 opened.line (opened.units ++ more) = _ at hb
    simp only [ho, hb, UnitCursor.followedBy, bind, Except.bind]
    split
    · next next hn => rw [if_neg (hnext next hn)]
    · rfl
  | case4 unit rest line hne he ht =>
    cases h
    change readChain ⟨unit :: (rest ++ more), line⟩ = _
    rw [readChain_cons, if_neg hne, if_neg he, ht]
    rfl
  | case6 unit rest line hne he text ht branch left hb ih =>
    obtain ⟨inner, hc, rfl⟩ := map_eq_ok.1 h
    exact @readChain_elseIf _ _ _ unit _ _ ht (readBranch_followedBy hb more) (ih hc hf) line

/-- A closing brace after a chain is a fault, and nothing of the chain is read. -/
theorem readChain_brace {cursor : UnitCursor} {chain : Chain} (h : readChain cursor = .ok chain)
    (hu : chain.cursor.units = []) (hb : unit.text = closingBrace) (more : List SourceUnit) :
    readChain (cursor.followedBy (unit :: more)) = .error (fault .unmatchedBrace unit.line) := by
  fun_induction readChain cursor generalizing chain with
  | case1 line =>
    change readChain ⟨unit :: more, line⟩ = _
    rw [readChain_cons, if_pos hb]
  | case2 | case5 => cases h
  | case3 first rest line hne he =>
    obtain ⟨opened, body, left, ho, hbody, -, rfl⟩ := exists_of_else h
    have ho := openBlock_followedBy ho (unit :: more)
    have hbody := readBlock_followedBy hbody (unit :: more)
    change left.units = [] at hu
    change readChain ⟨first :: (rest ++ unit :: more), line⟩ = _
    rw [readChain_cons, if_neg hne, if_pos he]
    change openBlock .missingBraceAfterElse ⟨rest ++ unit :: more, first.line⟩ = _ at ho
    change readBlock 0 opened.line (opened.units ++ unit :: more) = _ at hbody
    simp only [ho, hbody, UnitCursor.followedBy, bind, Except.bind, hu, List.nil_append,
      List.head?_cons, if_pos hb]
  | case4 first rest line hne he ht =>
    cases h
    cases hu
  | case6 first rest line hne he text ht branch left hbranch ih =>
    obtain ⟨inner, hc, rfl⟩ := map_eq_ok.1 h
    change readChain ⟨first :: (rest ++ unit :: more), line⟩ = _
    rw [readChain_cons, if_neg hne, if_neg he, ht]
    have hbranch : readBranch "else if" first.line text ⟨rest ++ unit :: more, first.line⟩ =
        .ok (branch, left.followedBy (unit :: more)) := readBranch_followedBy hbranch _
    simp only [hbranch, bind, Except.bind, ih hc hu]

end FormulaScript.Script
