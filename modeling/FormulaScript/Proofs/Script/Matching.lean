import FormulaScript.Proofs.Script.Braces
import Mathlib.Logic.Function.Iterate
import Mathlib.Order.Bounds.Basic

/-!
# Matching brackets

A block ends with the brace, and a condition with the parenthesis, by which the level of nesting
first comes to zero. The level is the number of brackets that open one less the number of those that
close one, counted over everything read so far. The readers do not count again: they carry the level
along, from character to character, from unit to unit, and for a condition from the end of one unit
to the start of the next, so it does not matter where a text is split into units.
-/

namespace FormulaScript.Script

/-! ## Levels of nesting -/

/-- Items that open a level of nesting, and items that close one. -/
structure Brackets (α : Type) where
  opens : α → Bool
  closes : α → Bool
  apart : ∀ x, opens x → closes x = false

namespace Brackets

/-- The level after the items, counted from the level before them. -/
def levelAfter (b : Brackets α) (level : Int) (xs : List α) : Int :=
  level + xs.countP b.opens - xs.countP b.closes

/-- A closing item stands at the index, and the level after it is zero. -/
def ClosesAt (b : Brackets α) (level : Int) (xs : List α) (i : Nat) : Prop :=
  (∃ x ∈ xs[i]?, b.closes x) ∧ b.levelAfter level (xs.take (i + 1)) = 0

/-- The first closing item after which the level is zero stands at the index. -/
def EndsAt (b : Brackets α) (level : Int) (xs : List α) (i : Nat) : Prop :=
  IsLeast {i | b.ClosesAt level xs i} i

/-- A search for the end of a level either finds it, or it is missing. -/
def Cut (b : Brackets α) (level : Int) (xs : List α) (found : Nat → Prop) (missing : Prop) : Prop :=
  (∃ i, b.EndsAt level xs i ∧ found i) ∨ (∀ i, ¬ b.ClosesAt level xs i) ∧ missing

variable {b : Brackets α} {level level' : Int} {x : α} {xs : List α} {i : Nat}

theorem levelAfter_cons (b : Brackets α) (level : Int) (x : α) (xs : List α) :
    b.levelAfter level (x :: xs) = b.levelAfter (b.levelAfter level [x]) xs := by
  simp only [levelAfter, List.countP_cons, List.countP_nil, Nat.cast_add]
  omega

theorem levelAfter_opening (h : b.opens x) (level : Int) :
    b.levelAfter level [x] = level + 1 := by
  simp [levelAfter, h, b.apart x h]

theorem levelAfter_closing (h : b.closes x) (level : Int) :
    b.levelAfter level [x] = level - 1 := by
  have ho : b.opens x = false := Bool.eq_false_iff.2 fun ho => by simp [b.apart x ho] at h
  simp [levelAfter, h, ho]

theorem levelAfter_other (ho : b.opens x = false) (hc : b.closes x = false) (level : Int) :
    b.levelAfter level [x] = level := by
  simp [levelAfter, ho, hc]

theorem not_closesAt_nil (i : Nat) : ¬ b.ClosesAt level [] i := by
  rintro ⟨⟨x, hx, -⟩, -⟩
  cases hx

theorem closesAt_zero :
    b.ClosesAt level (x :: xs) 0 ↔ b.closes x ∧ b.levelAfter level [x] = 0 := by
  simp [ClosesAt]

theorem closesAt_succ :
    b.ClosesAt level (x :: xs) (i + 1) ↔ b.ClosesAt (b.levelAfter level [x]) xs i := by
  unfold ClosesAt
  rw [List.getElem?_cons_succ, List.take_succ_cons, levelAfter_cons b level x (xs.take (i + 1))]

namespace Cut

variable {found found' : Nat → Prop} {missing missing' : Prop}

theorem nil (h : missing) : b.Cut level [] found missing := .inr ⟨not_closesAt_nil, h⟩

theorem head (hc : b.closes x) (h : found 0) : b.Cut 1 (x :: xs) found missing :=
  .inl ⟨0, ⟨closesAt_zero.2 ⟨hc, levelAfter_closing hc 1⟩, fun _ _ => Nat.zero_le _⟩, h⟩

/-- The search goes on after an item by which the level does not come to zero. -/
theorem cons (h : b.Cut level' xs found missing) (hl : b.levelAfter level [x] = level')
    (hne : level' ≠ 0) (hf : ∀ i, found i → found' (i + 1)) (hm : missing → missing') :
    b.Cut level (x :: xs) found' missing' := by
  subst hl
  have hzero : ¬ b.ClosesAt level (x :: xs) 0 := fun hc => hne (closesAt_zero.1 hc).2
  rcases h with ⟨i, ⟨hi, hleast⟩, hfound⟩ | ⟨hnone, hmissing⟩
  · refine .inl ⟨i + 1, ⟨closesAt_succ.2 hi, ?_⟩, hf i hfound⟩
    rintro (_ | j) hj
    · exact absurd hj hzero
    · exact Nat.succ_le_succ (hleast (closesAt_succ.1 hj))
  · refine .inr ⟨?_, hm hmissing⟩
    rintro (_ | j) hj
    · exact hzero hj
    · exact hnone j (closesAt_succ.1 hj)

/-- A result that is given where the end is found is given there only. -/
theorem found_iff {result r : β} {f : Nat → β}
    (h : b.Cut level xs (fun i => result = f i) missing) (hm : missing → result ≠ r) :
    result = r ↔ ∃ i, b.EndsAt level xs i ∧ r = f i := by
  rcases h with ⟨i, hi, rfl⟩ | ⟨hn, hmissing⟩
  · constructor
    · rintro rfl
      exact ⟨i, hi, rfl⟩
    · rintro ⟨j, hj, rfl⟩
      rw [hi.unique hj]
  · exact ⟨fun hr => absurd hr (hm hmissing), fun ⟨j, hj, _⟩ => absurd hj.1 (hn j)⟩

/-- A result that is given where the end is missing is given there only. -/
theorem missing_iff {result r : β} {q : Prop} (h : b.Cut level xs found missing)
    (hf : ∀ i, found i → result ≠ r) (hm : missing → (result = r ↔ q)) :
    result = r ↔ (∀ i, ¬ b.ClosesAt level xs i) ∧ q := by
  rcases h with ⟨i, hi, hfound⟩ | ⟨hn, hmissing⟩
  · exact ⟨fun hr => absurd hr (hf i hfound), fun ⟨hn, _⟩ => absurd hi.1 (hn i)⟩
  · exact (hm hmissing).trans (and_iff_right hn).symm

end Cut

end Brackets

/-! ## Blocks -/

/-- The braces, each a unit of its own. -/
def unitBraces : Brackets SourceUnit where
  opens unit := unit.text = openingBrace
  closes unit := unit.text = closingBrace
  apart unit h := by
    have ho : unit.text = openingBrace := by simpa using h
    rw [ho]
    rfl

/-- The cursor after one more unit, if there is one. -/
def UnitCursor.advance : UnitCursor → UnitCursor
  | ⟨[], line⟩ => ⟨[], line⟩
  | ⟨unit :: rest, _⟩ => ⟨rest, unit.line⟩

open UnitCursor

/-- A unit that does not end the block is taken into it, and changes the level as its brace does. -/
theorem exists_readBlock_cons {depth : Nat} {unit : SourceUnit}
    (h : unit.text = closingBrace → depth ≠ 0) :
    ∃ depth' : Nat, unitBraces.levelAfter (depth + 1) [unit] = depth' + 1 ∧
      ∀ line rest, readBlock depth line (unit :: rest) =
        (readBlock depth' unit.line rest).map fun (body, left) => (unit :: body, left) := by
  by_cases ho : unit.text = openingBrace
  · have hb : unitBraces.opens unit := decide_eq_true ho
    exact ⟨depth + 1, by rw [Brackets.levelAfter_opening hb]; rfl, fun line rest =>
      readBlock_opening depth line rest ho⟩
  by_cases hc : unit.text = closingBrace
  · obtain ⟨depth, rfl⟩ := Nat.exists_eq_succ_of_ne_zero (h hc)
    have hb : unitBraces.closes unit := decide_eq_true hc
    refine ⟨depth, ?_, fun line rest => readBlock_closing depth line rest hc⟩
    rw [Brackets.levelAfter_closing hb]
    omega
  · have hb := Brackets.levelAfter_other (b := unitBraces) (decide_eq_false ho)
      (decide_eq_false hc)
    exact ⟨depth, hb _, fun line rest => readBlock_other depth line rest ho hc⟩

/-- A block is the units before the brace that ends it. -/
theorem cut_readBlock (depth : Nat) (start : UnitCursor) :
    unitBraces.Cut (depth + 1) start.units
      (fun i => readBlock depth start.line start.units =
        .ok (start.units.take i, advance^[i + 1] start))
      (readBlock depth start.line start.units =
        .error (fault .unbalancedBraces (advance^[start.units.length] start).line)) := by
  obtain ⟨us, line⟩ := start
  induction us generalizing depth line with
  | nil => exact .nil rfl
  | cons unit rest ih =>
    by_cases hend : unit.text = closingBrace ∧ depth = 0
    · obtain ⟨hc, rfl⟩ := hend
      exact .head (decide_eq_true hc) (by simp [readBlock, hc, advance])
    · obtain ⟨depth', hl, hr⟩ := exists_readBlock_cons fun hc hd => hend ⟨hc, hd⟩
      refine (ih depth' unit.line).cons hl (by omega) (fun i h => ?_) fun h => ?_
      · rw [hr, h]
        rfl
      · rw [hr, h]
        rfl

theorem readBlock_eq_ok_iff {start : UnitCursor} {body : List SourceUnit} {left : UnitCursor} :
    readBlock 0 start.line start.units = .ok (body, left) ↔
      ∃ i, unitBraces.EndsAt 1 start.units i ∧ body = start.units.take i ∧
        left = advance^[i + 1] start := by
  rw [(cut_readBlock 0 start).found_iff fun hr => hr ▸ nofun]
  simp only [Except.ok.injEq, Prod.mk.injEq]
  rfl

theorem readBlock_eq_error_iff {start : UnitCursor} {problem : Diagnostic} :
    readBlock 0 start.line start.units = .error problem ↔
      (∀ i, ¬ unitBraces.ClosesAt 1 start.units i) ∧
        problem = fault .unbalancedBraces (advance^[start.units.length] start).line := by
  refine (cut_readBlock 0 start).missing_iff (fun i hr => hr ▸ nofun) fun hr => ?_
  rw [hr, Except.error.injEq, eq_comm]

/-! ## Conditions -/

/-- The parentheses of a condition. -/
def parentheses : Brackets Char where
  opens c := c = '('
  closes c := c = ')'
  apart c h := by
    have ho : c = '(' := by simpa using h
    rw [ho]
    rfl

/-- A character that does not end the condition changes the level as a parenthesis does. -/
theorem exists_scanParentheses_cons {level : Nat} {c : Char} (h : c = ')' → level ≠ 0) :
    ∃ level' : Nat, parentheses.levelAfter (level + 1) [c] = level' + 1 ∧
      ∀ rest, scanParentheses (level + 1) (c :: rest) =
        (scanParentheses (level' + 1) rest).cons c := by
  by_cases ho : c = '('
  · have hb : parentheses.opens c := decide_eq_true ho
    refine ⟨level + 1, by rw [Brackets.levelAfter_opening hb]; rfl, fun rest => ?_⟩
    rw [scanParentheses, if_pos ho]
  by_cases hc : c = ')'
  · obtain ⟨level, rfl⟩ := Nat.exists_eq_succ_of_ne_zero (h hc)
    have hb : parentheses.closes c := decide_eq_true hc
    refine ⟨level, ?_, fun rest => ?_⟩
    · rw [Brackets.levelAfter_closing hb]
      omega
    · rw [scanParentheses, if_neg ho, if_pos hc, if_neg (by omega)]
      rfl
  · have hb := Brackets.levelAfter_other (b := parentheses) (decide_eq_false ho)
      (decide_eq_false hc)
    refine ⟨level, hb _, fun rest => ?_⟩
    rw [scanParentheses, if_neg ho, if_neg hc]

/-- A condition is what stands before the parenthesis that ends it. -/
theorem cut_scanParentheses (level : Nat) (text : List Char) :
    parentheses.Cut (level + 1) text
      (fun i => scanParentheses (level + 1) text = .closed (text.take i) (text.drop (i + 1)))
      (∃ left : Nat, scanParentheses (level + 1) text = .unclosed left ∧
        parentheses.levelAfter (level + 1) text = left) := by
  induction text generalizing level with
  | nil => exact .nil ⟨level + 1, rfl, by simp [Brackets.levelAfter]⟩
  | cons c text ih =>
    by_cases hend : c = ')' ∧ level = 0
    · obtain ⟨rfl, rfl⟩ := hend
      exact .head rfl (by simp [scanParentheses])
    · obtain ⟨level', hl, hr⟩ := exists_scanParentheses_cons fun hc hz => hend ⟨hc, hz⟩
      refine (ih level').cons hl (by omega) (fun i h => ?_) ?_
      · rw [hr, h]
        rfl
      · rintro ⟨left, h, hleft⟩
        refine ⟨left, ?_, ?_⟩
        · rw [hr, h]
          rfl
        · rw [Brackets.levelAfter_cons, hl, hleft]

theorem scanParentheses_eq_closed_iff {level : Nat} {text before after : List Char} :
    scanParentheses (level + 1) text = .closed before after ↔
      ∃ i, parentheses.EndsAt (level + 1) text i ∧ before = text.take i ∧
        after = text.drop (i + 1) := by
  rw [(cut_scanParentheses level text).found_iff fun ⟨_, hr, _⟩ => hr ▸ nofun]
  simp only [Scan.closed.injEq]

theorem scanParentheses_eq_unclosed_iff {level left : Nat} {text : List Char} :
    scanParentheses (level + 1) text = .unclosed left ↔
      (∀ i, ¬ parentheses.ClosesAt (level + 1) text i) ∧
        parentheses.levelAfter (level + 1) text = left := by
  refine (cut_scanParentheses level text).missing_iff (fun i hr => hr ▸ nofun) ?_
  rintro ⟨left', hr, hl⟩
  rw [hr, Scan.unclosed.injEq, hl, Nat.cast_inj]

/-! ## Conditions over several units -/

theorem scanParentheses_append_of_closed {level : Nat} {text before after : List Char}
    (h : scanParentheses (level + 1) text = .closed before after) (more : List Char) :
    scanParentheses (level + 1) (text ++ more) = .closed before (after ++ more) := by
  rw [eq_of_closed h, List.append_assoc, List.cons_append]
  exact scanParentheses_closed (openAfter_of_closed h) (after ++ more)

/-- What follows a text that does not end the condition is scanned with the level that it leaves. -/
theorem exists_scanParentheses_append {level left : Nat} {text : List Char}
    (h : scanParentheses (level + 1) text = .unclosed left) :
    ∃ level', left = level' + 1 ∧ ∀ more, scanParentheses (level + 1) (text ++ more) =
      text.foldr Scan.cons (scanParentheses (level' + 1) more) := by
  obtain ⟨level', rfl, ho⟩ := openAfter_of_unclosed h
  exact ⟨level', rfl, scanParentheses_append ho⟩

/-- The texts that a condition is read from: what is left of its first unit, and the units after. -/
def UnitCursor.parts (text : List Char) (start : UnitCursor) : List (List Char) :=
  text :: start.units.map (·.text)

/-- Read unit by unit, a condition ends with the same parenthesis as in the whole of the units. -/
theorem cut_readPieces (level : Nat) (text : List Char) (start : UnitCursor) :
    (∃ i last after, (start.parts text)[i]? = some (last ++ ')' :: after) ∧
      scanParentheses (level + 1) (start.parts text).flatten =
        .closed (((start.parts text).take i).flatten ++ last)
          (after ++ ((start.parts text).drop (i + 1)).flatten) ∧
      readPieces (level + 1) start.line text start.units =
        .ok ((start.parts text).take i ++ [last], after, advance^[i] start)) ∨
    (∃ left, scanParentheses (level + 1) (start.parts text).flatten = .unclosed left) ∧
      readPieces (level + 1) start.line text start.units =
        .error (fault .unbalancedCondition (advance^[start.units.length] start).line) := by
  obtain ⟨us, line⟩ := start
  unfold parts
  -- the induction goes on at the level that the first text leaves
  induction us generalizing level line text with
  | nil =>
    rw [List.map_nil, List.flatten_singleton, readPieces]
    cases hs : scanParentheses (level + 1) text with
    | closed before after =>
      exact .inl ⟨0, before, after, congrArg some (eq_of_closed hs), by simp, rfl⟩
    | unclosed left => exact .inr ⟨⟨left, rfl⟩, rfl⟩
  | cons unit rest ih =>
    rw [List.map_cons, readPieces, List.flatten_cons]
    cases hs : scanParentheses (level + 1) text with
    | closed before after =>
      refine .inl ⟨0, before, after, congrArg some (eq_of_closed hs), ?_, rfl⟩
      rw [scanParentheses_append_of_closed hs]
      simp
    | unclosed left =>
      obtain ⟨level', rfl, happend⟩ := exists_scanParentheses_append hs
      rw [happend]
      rcases ih level' unit.text unit.line with ⟨i, last, after, hi, hw, hr⟩ | ⟨⟨left, hw⟩, hr⟩
      · refine .inl ⟨i + 1, last, after, hi, ?_, ?_⟩
        · rw [hw, foldr_cons_closed]
          simp
        · dsimp only at hr ⊢
          rw [hr]
          rfl
      · refine .inr ⟨⟨left, ?_⟩, ?_⟩
        · rw [hw, foldr_cons_unclosed]
        · dsimp only at hr ⊢
          rw [hr]
          rfl

theorem scanParentheses_parts_eq_closed_iff {level : Nat} {text : List Char} {start : UnitCursor}
    {before rest : List Char} :
    scanParentheses (level + 1) (start.parts text).flatten = .closed before rest ↔
      ∃ i last after, (start.parts text)[i]? = some (last ++ ')' :: after) ∧
        before = ((start.parts text).take i).flatten ++ last ∧
        rest = after ++ ((start.parts text).drop (i + 1)).flatten ∧
        readPieces (level + 1) start.line text start.units =
          .ok ((start.parts text).take i ++ [last], after, advance^[i] start) := by
  rcases cut_readPieces level text start with ⟨i, last, after, hi, hw, hr⟩ | ⟨⟨left, hw⟩, hr⟩
  · rw [hw, hr]
    constructor
    · rintro ⟨⟩
      exact ⟨i, last, after, hi, rfl, rfl, rfl⟩
    · rintro ⟨j, last', after', hj, rfl, rfl, h⟩
      obtain ⟨⟨hmin, rfl⟩, rfl, -⟩ : (_ ∧ last = last') ∧ after = after' ∧ _ := by simpa using h
      have hi := (List.getElem?_eq_some_iff.1 hi).1
      have hj := (List.getElem?_eq_some_iff.1 hj).1
      obtain rfl : i = j := by omega
      rfl
  · rw [hw, hr]
    exact ⟨nofun, fun ⟨_, _, _, _, _, _, h⟩ => nomatch h⟩

theorem readPieces_eq_error_iff {level : Nat} {text : List Char} {start : UnitCursor}
    {problem : Diagnostic} :
    readPieces (level + 1) start.line text start.units = .error problem ↔
      (∃ left, scanParentheses (level + 1) (start.parts text).flatten = .unclosed left) ∧
        problem = fault .unbalancedCondition (advance^[start.units.length] start).line := by
  rcases cut_readPieces level text start with ⟨i, last, after, hi, hw, hr⟩ | ⟨⟨left, hw⟩, hr⟩
  · rw [hw, hr]
    exact ⟨nofun, fun ⟨⟨_, h⟩, _⟩ => nomatch h⟩
  · rw [hw, hr]
    constructor
    · rintro ⟨⟩
      exact ⟨⟨left, rfl⟩, rfl⟩
    · rintro ⟨-, rfl⟩
      rfl

end FormulaScript.Script
