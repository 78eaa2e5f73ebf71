import FormulaScript.Proofs.Script.Conditions
import FormulaScript.Proofs.Script.Literals
import FormulaScript.Proofs.Script.Structure

/-!
# Drafts of scripts that differ in literals

On units that are alike but for literals every reader of the block structure gives results that are
alike but for literals. The counts show that a literal of the units ends up in the draft once.

Conditions are the exception: their end is found by counting parentheses, those in literals too. So
a literal in a condition can be replaced only by one that opens and closes the same numbers of them.
-/

namespace FormulaScript

/-- Whatever the first run gives, the second gives something that is related to it. -/
def Tracks (R : α → β → Prop) (a : Except ε α) (b : Except ε β) : Prop :=
  ∀ r, a = .ok r → ∃ r', b = .ok r' ∧ R r r'

/-- The parts of two pairs are related, with counts that sum up to `n`. -/
def Both (R : Nat → α → β → Prop) (S : Nat → γ → δ → Prop) (n : Nat) (p : α × γ) (q : β × δ) :
    Prop :=
  ∃ i j, i + j = n ∧ R i p.1 q.1 ∧ S j p.2 q.2

theorem Tracks.map {R : α → β → Prop} {S : γ → δ → Prop} {a : Except ε α} {b : Except ε β}
    (h : Tracks R a b) {f : α → γ} {g : β → δ} (hf : ∀ r r', R r r' → S (f r) (g r')) :
    Tracks S (a.map f) (b.map g) := by
  intro r hr
  cases a with
  | error => cases hr
  | ok a =>
    obtain ⟨r', rfl, hR⟩ := h a rfl
    cases hr
    exact ⟨g r', rfl, hf a r' hR⟩

theorem Tracks.bind {R : α → β → Prop} {S : γ → δ → Prop} {a : Except ε α} {b : Except ε β}
    (h : Tracks R a b) {f : α → Except ε γ} {g : β → Except ε δ}
    (hf : ∀ r r', R r r' → Tracks S (f r) (g r')) : Tracks S (a >>= f) (b >>= g) := by
  intro r hr
  cases a with
  | error => cases hr
  | ok a =>
    obtain ⟨r', rfl, hR⟩ := h a rfl
    exact hf a r' hR r hr

/-! ## Literals -/

namespace Literal

variable {x y : Literal}

/-- Whatever is open in front of the literals, as much is open after both, or both close more. -/
def Matches (x y : Literal) : Prop :=
  ∀ level, openAfter level x.text = openAfter level y.text

theorem Matches.symm (h : x.Matches y) : y.Matches x := fun level => (h level).symm

theorem matches_of_filter (h : x.text.filter isParenthesis = y.text.filter isParenthesis) :
    x.Matches y := fun level => by
  rw [← openAfter_filter, h, openAfter_filter]

theorem exists_longer (x : Literal) (n : Nat) : ∃ z, x.Matches z ∧ n < z.text.length := by
  refine ⟨⟨x.text ++ List.replicate (n + 1) 'a', ?_, ?_, ?_⟩, matches_of_filter ?_, ?_⟩
  · simp [x.quote]
  · simp [x.newline]
  · simp [x.nul]
  · have ha : isParenthesis 'a' = false := by decide
    simp [ha]
  · simp only [List.length_append, List.length_replicate]
    omega

theorem openAfter_quoted (x : Literal) (level : Nat) :
    openAfter level x.quoted = openAfter level x.text := by
  have hq : openAfter level x.quoted = openAfter level (x.text ++ ['"']) := rfl
  rw [hq, openAfter_append]
  cases openAfter level x.text <;> rfl

/-- The second literal can stand for the first in the text without a change to what is open after
it. -/
def Fits (x y : Literal) (text : List Char) : Prop := x.Matches y ∨ ¬ x.quoted <:+: text

end Literal

theorem SwapsText.openAfter_eq {x y : Literal} {n : Nat} {s t : List Char}
    (h : SwapsText x y n s t) (hf : x.Fits y s) (level : Nat) :
    openAfter level s = openAfter level t := by
  obtain hxy | hx := hf
  · induction h generalizing level with
    | nil => rfl
    | cons a _ ih => simp only [openAfter, ih]
    | swap _ ih =>
      rw [openAfter_append, openAfter_append, x.openAfter_quoted, y.openAfter_quoted, hxy level]
      exact Option.bind_congr fun level' _ => ih level'
  · cases h.eq_zero_of_not_infix hx
    rw [h.eq_of_zero]

namespace Script

open Text

variable {x y : Literal} {m n : Nat} {s t : List Char} {us vs : List SourceUnit}

/-- The units that are left are alike but for `n` literals. -/
abbrev SwapsCursor (x y : Literal) (n : Nat) (c d : UnitCursor) : Prop :=
  SwapsUnits x y n c.units d.units

theorem SwapsUnit.eq_zero {u v : SourceUnit} (h : SwapsUnit x y n u v) (hu : u.text = k)
    (hk : '"' ∉ k) : n = 0 :=
  h.text.eq_zero (hu ▸ hk)

theorem SwapsUnit.text_eq_iff {u v : SourceUnit} (h : SwapsUnit x y n u v) (hk : '"' ∉ k) :
    u.text = k ↔ v.text = k :=
  h.text.eq_iff hk

/-! ## Blocks -/

theorem tracks_readBlock (h : SwapsUnits x y n us vs) (depth line line' : Nat) :
    Tracks (Both (SwapsUnits x y) (SwapsCursor x y) n) (readBlock depth line us)
      (readBlock depth line' vs) := by
  induction h generalizing depth line line' with
  | nil => nofun
  | @cons m u v n us vs hu hus ih =>
    have step (d : Nat) : Tracks (Both (SwapsUnits x y) (SwapsCursor x y) (m + n))
        ((readBlock d u.line us).map fun result => (u :: result.1, result.2))
        ((readBlock d v.line vs).map fun result => (v :: result.1, result.2)) := by
      refine (ih d _ _).map ?_
      rintro ⟨a, c⟩ ⟨b, d⟩ ⟨i, j, rfl, ha, hc⟩
      exact ⟨m + i, j, Nat.add_assoc m i j, .cons hu ha, hc⟩
    have hclosing := hu.text_eq_iff (k := closingBrace) (by decide)
    have hopening := hu.text_eq_iff (k := openingBrace) (by decide)
    unfold readBlock
    by_cases hc : u.text = closingBrace
    · rw [if_pos hc, if_pos (hclosing.1 hc)]
      cases depth with
      | zero =>
        cases hu.eq_zero hc (by decide)
        rintro r ⟨⟩
        exact ⟨_, rfl, 0, n, rfl, .nil, hus⟩
      | succ depth => exact step depth
    · rw [if_neg hc, if_neg (mt hclosing.2 hc)]
      simp only [hopening]
      exact step _

theorem tracks_openBlock {c d : UnitCursor} (h : SwapsCursor x y n c d) (problem : Problem) :
    Tracks (SwapsCursor x y n) (openBlock problem c) (openBlock problem d) := by
  obtain ⟨us, line⟩ := c
  obtain ⟨vs, line'⟩ := d
  cases h with
  | nil => nofun
  | @cons m u v n us vs hu hus =>
    have hopening := hu.text_eq_iff (k := openingBrace) (by decide)
    unfold openBlock
    dsimp only
    by_cases ho : u.text = openingBrace
    · cases hu.eq_zero ho (by decide)
      rw [if_pos ho, if_pos (hopening.1 ho), Nat.zero_add]
      rintro r ⟨⟩
      exact ⟨_, rfl, hus⟩
    · rw [if_neg ho]
      nofun

/-! ## Keywords -/

theorem rel_afterKeyword {keyword : String} (hk : '"' ∉ keyword.toList) (h : SwapsText x y n s t) :
    Option.Rel (SwapsText x y n) (afterKeyword keyword s) (afterKeyword keyword t) := by
  unfold afterKeyword
  rcases h.prefix_cases hk with ⟨s', t', rfl, rfl, h'⟩ | ⟨hs, ht⟩
  · have hp (rest : List Char) : keyword.toList.isPrefixOf (keyword.toList ++ rest) :=
      List.isPrefixOf_iff_prefix.2 (List.prefix_append _ _)
    have ht := SwapsText.trim h'
    rw [if_pos (hp s'), if_pos (hp t'), drop_word, drop_word]
    dsimp only
    rw [← ht.isEmpty_eq, ← ht.head?_eq]
    split
    · exact .some ht
    · exact .none
  · rw [if_neg (mt List.isPrefixOf_iff_prefix.1 hs), if_neg (mt List.isPrefixOf_iff_prefix.1 ht)]
    exact .none

theorem length_trimLeft_lt_iff (text : List Char) :
    (trimLeft text).length < text.length ↔ ∃ c ∈ text.head?, isBlank c := by
  cases text with
  | nil => simp [trimLeft]
  | cons c rest =>
    by_cases hc : isBlank c
    · have hl : (trimLeft rest).length ≤ rest.length := (List.dropWhile_suffix isBlank).length_le
      have ht : trimLeft (c :: rest) = trimLeft rest := List.dropWhile_cons_of_pos hc
      simp [ht, hc]
      omega
    · rw [trimLeft_cons (by simpa using hc)]
      simp [hc]

theorem rel_afterElseIf (h : SwapsText x y n s t) :
    Option.Rel (SwapsText x y n) (afterElseIf s) (afterElseIf t) := by
  have hp (word : String) (rest : List Char) : word.toList.isPrefixOf (word.toList ++ rest) :=
    List.isPrefixOf_iff_prefix.2 (List.prefix_append _ _)
  unfold afterElseIf
  rcases h.prefix_cases (by decide : '"' ∉ "else".toList) with ⟨s', t', rfl, rfl, h'⟩ | ⟨hs, ht⟩
  · rw [if_pos (hp "else" s'), if_pos (hp "else" t'), drop_word, drop_word]
    dsimp only
    have hblank : (trimLeft s').length < s'.length ↔ (trimLeft t').length < t'.length := by
      rw [length_trimLeft_lt_iff, length_trimLeft_lt_iff, h'.head?_eq]
    have hw := SwapsText.trimLeft h'
    rcases hw.prefix_cases (by decide : '"' ∉ "if".toList) with
      ⟨s'', t'', hs, ht, h''⟩ | ⟨hs, ht⟩
    · rw [hs, ht] at hblank ⊢
      rw [drop_word, drop_word, hp, hp, ← h''.head?_eq]
      simp only [hblank]
      split
      · exact .some (SwapsText.trim h'')
      · exact .none
    · simp only [mt List.isPrefixOf_iff_prefix.1 hs, mt List.isPrefixOf_iff_prefix.1 ht,
        Bool.and_false, Bool.false_and]
      exact .none
  · rw [if_neg (mt List.isPrefixOf_iff_prefix.1 hs), if_neg (mt List.isPrefixOf_iff_prefix.1 ht)]
    exact .none

/-! ## Conditions -/

/-- If no quote follows the parenthesis that closes all open ones, it stands in the same place. -/
theorem exists_closed {level : Nat} {before after : List Char} (h : SwapsText x y n s t)
    (hs : scanParentheses (level + 1) s = .closed before after) (ha : '"' ∉ after)
    (hf : x.Fits y before) :
    ∃ before', scanParentheses (level + 1) t = .closed before' after ∧
      SwapsText x y n before before' := by
  have ho := openAfter_of_closed hs
  rw [eq_of_closed hs] at h
  obtain ⟨before', rfl, hb⟩ := h.exists_append (by simpa using ha)
  exact ⟨before', scanParentheses_closed (hb.openAfter_eq hf level ▸ ho) after, hb⟩

theorem foldr_cons_unclosed (text : List Char) (level : Nat) :
    text.foldr Scan.cons (.unclosed level) = .unclosed level := by
  induction text with
  | nil => rfl
  | cons c text ih => rw [List.foldr_cons, ih]; rfl

theorem scan_unclosed {level left : Nat} (h : SwapsText x y n s t)
    (hs : scanParentheses (level + 1) s = .unclosed left) (hf : x.Fits y s) :
    scanParentheses (level + 1) t = .unclosed left := by
  obtain ⟨level', rfl, ho⟩ := openAfter_of_unclosed hs
  have ht := scanParentheses_append (h.openAfter_eq hf level ▸ ho) []
  rwa [List.append_nil, scanParentheses, foldr_cons_unclosed] at ht

/-- The pieces are alike but for `n` literals. -/
abbrev SwapsPieces (x y : Literal) : Nat → List (List Char) → List (List Char) → Prop :=
  Tally (SwapsText x y)

theorem SwapsPieces.tidy {as bs : List (List Char)} (h : SwapsPieces x y n as bs) :
    SwapsPieces x y n ((as.map trim).filter (!·.isEmpty)) ((bs.map trim).filter (!·.isEmpty)) := by
  induction h with
  | nil => exact .nil
  | @cons m s t n as bs h _ ih =>
    have ht := SwapsText.trim h
    rw [List.map_cons, List.map_cons, List.filter_cons, List.filter_cons, ← ht.isEmpty_eq]
    split
    · exact .cons ht ih
    · next he =>
      have he : trim s = [] := by simpa using he
      cases ht.eq_zero (he ▸ List.not_mem_nil)
      rwa [Nat.zero_add]

theorem SwapsPieces.intercalate {as bs : List (List Char)} (h : SwapsPieces x y n as bs) :
    SwapsText x y n ([' '].intercalate as) ([' '].intercalate bs) := by
  induction h with
  | nil => exact .nil
  | cons h hs ih =>
    cases hs with
    | nil => simpa [List.intercalate] using h
    | cons =>
      rw [intercalate_cons_cons, intercalate_cons_cons]
      exact Swaps.append h (.cons ' ' ih)

theorem swapsText_joinPieces {as bs : List (List Char)} (h : SwapsPieces x y n as bs) :
    SwapsText x y n (joinPieces as) (joinPieces bs) :=
  h.tidy.intercalate

theorem infix_joinPieces {piece : List Char} {pieces : List (List Char)} (hp : piece ∈ pieces)
    (hx : x.quoted <:+: piece) : x.quoted <:+: joinPieces pieces := by
  -- the literal counts once among the pieces, so it does when they are joined
  obtain ⟨front, back, rfl⟩ := List.append_of_mem hp
  obtain ⟨before, after, rfl⟩ := hx
  have hs : SwapsText x x 1 (before ++ x.quoted ++ after) (before ++ x.quoted ++ after) :=
    ((Swaps.refl before).append (.part _ _)).append (.refl after)
  have hpieces : SwapsPieces x x 1 (front ++ (before ++ x.quoted ++ after) :: back)
      (front ++ (before ++ x.quoted ++ after) :: back) :=
    (Tally.refl Swaps.refl front).append (.cons hs (.refl Swaps.refl back))
  obtain ⟨before', after', hj, -⟩ := (swapsText_joinPieces hpieces).exists_of_one
  exact ⟨before', after', hj.symm⟩

theorem exists_readPieces {pieces : List (List Char)} {after : List Char} {left : UnitCursor}
    {level line : Nat} (ht : SwapsText x y m s t) (hu : SwapsUnits x y n us vs) (line' : Nat)
    (h : readPieces (level + 1) line s us = .ok (pieces, after, left)) (ha : '"' ∉ after)
    (hf : ∀ piece ∈ pieces, x.Fits y piece) :
    ∃ pieces' left', readPieces (level + 1) line' t vs = .ok (pieces', after, left') ∧
      Both (SwapsPieces x y) (SwapsCursor x y) (m + n) (pieces, left) (pieces', left') := by
  induction hu generalizing level line line' m s t pieces with
  | nil =>
    rw [readPieces] at h ⊢
    split at h
    · next hs =>
      cases h
      obtain ⟨before', ht, hb⟩ := exists_closed ht hs ha (hf _ List.mem_cons_self)
      rw [ht]
      exact ⟨_, _, rfl, m, 0, rfl, .singleton hb, .nil⟩
    · cases h
  | @cons k u v n us vs hu hus ih =>
    rw [readPieces] at h ⊢
    split at h
    · next hs =>
      cases h
      obtain ⟨before', ht, hb⟩ := exists_closed ht hs ha (hf _ List.mem_cons_self)
      rw [ht]
      exact ⟨_, _, rfl, m, k + n, rfl, .singleton hb, .cons hu hus⟩
    · next hs =>
      obtain ⟨level', rfl, -⟩ := openAfter_of_unclosed hs
      obtain ⟨⟨inner, tail, rest⟩, hr, h⟩ := map_eq_ok.1 h
      cases h
      obtain ⟨hfs, hf⟩ := List.forall_mem_cons.1 hf
      obtain ⟨pieces', left', hr', i, j, hij, hp, hl⟩ := ih hu.text v.line hr hf
      rw [scan_unclosed ht hs hfs]
      dsimp only
      rw [hr']
      exact ⟨t :: pieces', left', rfl, m + i, j, by omega, .cons ht hp, hl⟩

theorem both_conditionStart {c d : UnitCursor} (ht : SwapsText x y m s t)
    (h : SwapsCursor x y n c d) :
    Both (SwapsText x y) (SwapsCursor x y) (m + n) (conditionStart s c) (conditionStart t d) := by
  unfold conditionStart
  rw [← ht.isEmpty_eq]
  split
  · next he =>
    cases ht.eq_zero (List.isEmpty_iff.1 he ▸ List.not_mem_nil)
    obtain ⟨us, line⟩ := c
    obtain ⟨vs, line'⟩ := d
    cases h with
    | nil => exact ⟨0, 0, rfl, .nil, .nil⟩
    | @cons i _ _ j _ _ hu hus => exact ⟨i, j, (Nat.zero_add _).symm, hu.text, hus⟩
  · exact ⟨m, n, rfl, ht, h⟩

theorem isEmpty_trim_of_mem {text : List Char} (h : '"' ∈ text) : (trim text).isEmpty = false := by
  rw [Bool.eq_false_iff]
  intro he
  obtain ⟨before, after, hb, ha, ht⟩ := exists_trim text
  rw [List.isEmpty_iff.1 he, List.append_nil] at ht
  rcases List.mem_append.1 (ht ▸ h) with h | h
  · exact absurd (hb _ h) (by decide)
  · exact absurd (ha _ h) (by decide)

theorem exists_readCondition {c d opened : UnitCursor} (ht : SwapsText x y m s t)
    (hc : SwapsCursor x y n c d) (h : readCondition keyword s c = .ok (condition, opened))
    (hf : x.Fits y condition) :
    ∃ condition' opened', readCondition keyword t d = .ok (condition', opened') ∧
      Both (SwapsText x y) (SwapsCursor x y) (m + n) (condition, opened) (condition', opened') := by
  obtain ⟨rest, start, pieces, after, left, hstart, hp, ha, rfl, hn, ho⟩ := readCondition_eq_ok.1 h
  obtain ⟨i, j, hij, hs, hcursor⟩ := both_conditionStart ht hc
  rw [hstart] at hs hcursor
  generalize hstart' : conditionStart t d = q at hs hcursor
  obtain ⟨text', start'⟩ := q
  have hquote : '"' ∉ after := fun hm => by
    have he := isEmpty_trim_of_mem hm
    rw [ha] at he
    cases he
  cases hs with
  | @cons _ _ rest' _ hs' =>
    obtain ⟨pieces', left', hp', k, l, hkl, hpieces, hleft⟩ := exists_readPieces hs' hcursor
      start'.line hp hquote fun piece hm => hf.imp_right (mt (infix_joinPieces hm))
    obtain ⟨opened', ho', hopened⟩ := tracks_openBlock hleft _ opened ho
    have hjoin := swapsText_joinPieces hpieces
    have hn' : joinPieces pieces' ≠ [] := by
      rwa [Ne, ← List.isEmpty_iff, ← hjoin.isEmpty_eq, List.isEmpty_iff]
    exact ⟨_, opened', readCondition_eq_ok.2 ⟨rest', start', pieces', after, left', hstart', hp',
      ha, rfl, hn', ho'⟩, k, l, hkl.trans hij, hjoin, hopened⟩

/-! ## Branches -/

/-- The branches are alike but for `n` literals. -/
structure SwapsBranch (x y : Literal) (n : Nat) (a b : Branch) : Prop where
  line : a.line = b.line
  parts : Both (SwapsText x y) (SwapsUnits x y) n (a.condition, a.body) (b.condition, b.body)

theorem exists_readBranch {c d left : UnitCursor} {branch : Branch} (ht : SwapsText x y m s t)
    (hc : SwapsCursor x y n c d) (h : readBranch keyword line s c = .ok (branch, left))
    (hf : x.Fits y branch.condition) :
    ∃ branch' left', readBranch keyword line t d = .ok (branch', left') ∧
      Both (SwapsBranch x y) (SwapsCursor x y) (m + n) (branch, left) (branch', left') := by
  obtain ⟨opened, hcondition, hbody, hline⟩ := exists_of_readBranch h
  obtain ⟨condition', opened', hcondition', i, j, hij, hs, hopened⟩ :=
    exists_readCondition ht hc hcondition hf
  obtain ⟨⟨body', left'⟩, hbody', k, l, hkl, hb, hleft⟩ :=
    tracks_readBlock hopened 0 opened.line opened'.line _ hbody
  exact ⟨_, left', readBranch_eq hcondition' hbody' line, i + k, l, by dsimp only at *; omega,
    ⟨hline, i, k, rfl, hs, hb⟩, hleft⟩

/-- The chains are alike but for `n` literals. -/
def SwapsChain (x y : Literal) (n : Nat) (a b : Chain) : Prop :=
  Both (Tally (SwapsBranch x y)) (Both (Tally (SwapsUnits x y)) (SwapsCursor x y)) n
    (a.branches, a.otherwise.toList, a.cursor) (b.branches, b.otherwise.toList, b.cursor)

theorem SwapsChain.of_cursor {c d : UnitCursor} (h : SwapsCursor x y n c d) :
    SwapsChain x y n ⟨[], none, c⟩ ⟨[], none, d⟩ :=
  ⟨0, n, Nat.zero_add n, .nil, 0, n, Nat.zero_add n, .nil, h⟩

/-- No closing brace follows the block of an `else`. -/
theorem tracks_otherwise {body body' : List SourceUnit} {left left' : UnitCursor}
    (hb : SwapsUnits x y m body body') (h : SwapsCursor x y n left left') (hmn : m + n = k) :
    Tracks (ε := Diagnostic) (SwapsChain x y k)
      (match left.units.head? with
        | some next =>
          if next.text = closingBrace then .error (fault .unmatchedBrace next.line)
          else .ok ⟨[], some body, left⟩
        | none => .ok ⟨[], some body, left⟩)
      (match left'.units.head? with
        | some next =>
          if next.text = closingBrace then .error (fault .unmatchedBrace next.line)
          else .ok ⟨[], some body', left'⟩
        | none => .ok ⟨[], some body', left'⟩) := by
  have done : Tracks (ε := Diagnostic) (SwapsChain x y k) (.ok ⟨[], some body, left⟩)
      (.ok ⟨[], some body', left'⟩) := by
    rintro r ⟨⟩
    exact ⟨_, rfl, 0, k, Nat.zero_add k, .nil, m, n, hmn, .singleton hb, h⟩
  obtain ⟨us, line⟩ := left
  obtain ⟨vs, line'⟩ := left'
  cases h with
  | nil => exact done
  | cons hnext =>
    have hclosing := hnext.text_eq_iff (k := closingBrace) (by decide)
    simp only [List.head?_cons, hclosing]
    split
    · nofun
    · exact done

theorem exists_readChain {c d : UnitCursor} {chain : Chain} (hc : SwapsCursor x y n c d)
    (h : readChain c = .ok chain) (hf : ∀ branch ∈ chain.branches, x.Fits y branch.condition) :
    ∃ chain', readChain d = .ok chain' ∧ SwapsChain x y n chain chain' := by
  induction hsize : c.units.length using Nat.strongRecOn generalizing c d n chain with | _ size ih
  obtain ⟨us, line⟩ := c
  obtain ⟨vs, line'⟩ := d
  cases hc with
  | nil =>
    rw [readChain] at h ⊢
    cases h
    exact ⟨_, rfl, .of_cursor .nil⟩
  | @cons i u v j us vs hu hus =>
    have hclosing := hu.text_eq_iff (k := closingBrace) (by decide)
    have helse := hu.text_eq_iff (k := "else".toList) (by decide)
    have hcursor : SwapsCursor x y j ⟨us, u.line⟩ ⟨vs, v.line⟩ := hus
    rw [readChain_cons] at h
    by_cases hc : u.text = closingBrace
    · rw [if_pos hc] at h
      cases h
    have hc' := mt hclosing.2 hc
    rw [if_neg hc] at h
    by_cases he : u.text = "else".toList
    · rw [if_pos he] at h
      rw [readChain_cons, if_neg hc', if_pos (helse.1 he)]
      cases hu.eq_zero he (by decide)
      rw [Nat.zero_add]
      refine Tracks.bind (tracks_openBlock hcursor _) (fun opened opened' ho => ?_) chain h
      refine (tracks_readBlock ho 0 _ _).bind ?_
      rintro ⟨body, left⟩ ⟨body', left'⟩ ⟨k, l, hkl, hbody, hleft⟩
      exact tracks_otherwise hbody hleft hkl
    rw [if_neg he] at h
    have hi := rel_afterElseIf hu.text
    generalize afterElseIf u.text = a at hi h
    generalize hi' : afterElseIf v.text = b at hi
    cases hi with
    | none =>
      cases h
      rw [readChain_cons, if_neg hc', if_neg (mt helse.2 he), hi']
      exact ⟨_, rfl, .of_cursor (.cons hu hus)⟩
    | some ht =>
      obtain ⟨⟨branch, left⟩, hb, h⟩ := bind_eq_ok.1 h
      obtain ⟨inner, hrest, h⟩ := bind_eq_ok.1 h
      cases h
      obtain ⟨hfirst, hothers⟩ := List.forall_mem_cons.1 hf
      obtain ⟨branch', left', hb', k, l, hkl, hbranch, hleft⟩ :=
        exists_readBranch ht hcursor hb hfirst
      have hlength := readBranch_length hb
      have hsmall : left.units.length < size := by
        simp only [List.length_cons] at hlength hsize
        omega
      obtain ⟨inner', hrest', k', l', hkl', hbranches, hafter⟩ :=
        ih _ hsmall hleft hrest hothers rfl
      rw [hu.line] at hb'
      exact ⟨_, readChain_elseIf hi' hb' hrest' line', k + k', l', by omega,
        .cons hbranch hbranches, hafter⟩

/-! ## Drafts -/

/-- No fault stops the draft, and its conditions have the property. -/
def Draft.Whole (p : List Char → Prop) : Draft → Prop
  | .done => True
  | .broken _ => False
  | .equation _ _ rest => rest.Whole p
  | .branch condition _ yes no rest => p condition ∧ yes.Whole p ∧ no.Whole p ∧ rest.Whole p
  | .loop condition _ body rest => p condition ∧ body.Whole p ∧ rest.Whole p

theorem Draft.whole_iff {p : List Char → Prop} {draft : Draft} :
    draft.Whole p ↔ draft.Whole (fun _ => True) ∧ ∀ condition ∈ draft.conditions, p condition := by
  induction draft with
  | done => simp [Whole, conditions]
  | broken => simp [Whole]
  | equation text line rest ih => exact ih
  | branch condition line yes no rest ihy ihn ihr =>
    simp only [Whole, conditions, List.forall_mem_append, List.forall_mem_cons]
    rw [ihy, ihn, ihr]
    tauto
  | loop condition line body rest ihb ihr =>
    simp only [Whole, conditions, List.forall_mem_append, List.forall_mem_cons]
    rw [ihb, ihr]
    tauto

theorem Draft.Whole.of_ofChain {p : List Char → Prop} {otherwise : Draft}
    {branches : List (List Char × Nat × Draft)}
    (h : (Draft.ofChain .done otherwise branches).Whole p) : ∀ branch ∈ branches, p branch.1 := by
  induction branches with
  | nil => nofun
  | cons branch branches ih =>
    obtain ⟨hc, -, hothers, -⟩ := h
    exact List.forall_mem_cons.2 ⟨hc, ih hothers⟩

theorem Chain.forall_of_whole {p : List Char → Prop} {chain : Chain} {line : Nat}
    (h : (chain.draft line).Whole p) : ∀ branch ∈ chain.branches, p branch.condition := by
  intro branch hm
  exact Draft.Whole.of_ofChain h _ (List.mem_map_of_mem hm)

section

variable {p : List Char → Prop} {topLevel : Bool} {line : Nat} {u : SourceUnit}

theorem ne_closingBrace (hk : afterKeyword keyword closingBrace = none)
    (h : afterKeyword keyword u.text = some s) : u.text ≠ closingBrace := fun hc => by
  rw [hc, hk] at h
  cases h

/-- Where an `if` stands in a whole draft, its first branch and what follows it can be read. -/
theorem exists_of_whole_if (hi : afterKeyword "if" u.text = some s)
    (hw : (draft topLevel line [] (u :: us)).Whole p) :
    ∃ first left chain, readBranch "if" u.line s ⟨us, u.line⟩ = .ok (first, left) ∧
      readChain left = .ok chain := by
  have hc := ne_closingBrace (by decide) hi
  cases hb : readBranch "if" u.line s ⟨us, u.line⟩ with
  | error => simp [draft_cons, hc, hi, hb, Draft.Whole] at hw
  | ok result =>
    cases hch : readChain result.2 with
    | error => simp [draft_cons, hc, hi, hb, hch, Draft.Whole] at hw
    | ok chain => exact ⟨result.1, result.2, chain, rfl, hch⟩

/-- Where a `while` stands in a whole draft, its branch can be read. -/
theorem exists_of_whole_while (hi : afterKeyword "if" u.text = none)
    (hl : afterKeyword "while" u.text = some s)
    (hw : (draft topLevel line [] (u :: us)).Whole p) :
    ∃ branch left, readBranch "while" u.line s ⟨us, u.line⟩ = .ok (branch, left) := by
  have hc := ne_closingBrace (by decide) hl
  cases hb : readBranch "while" u.line s ⟨us, u.line⟩ with
  | error => simp [draft_cons, hc, hi, hl, hb, Draft.Whole] at hw
  | ok result => exact ⟨result.1, result.2, rfl⟩

end

/-- The drafts are alike but for `n` literals, and no fault stops them. -/
inductive SwapsDraft (x y : Literal) : Nat → Draft → Draft → Prop
  | done : SwapsDraft x y 0 .done .done
  | equation (line : Nat) : SwapsText x y i text text' → SwapsDraft x y j rest rest' →
      SwapsDraft x y (i + j) (.equation text line rest) (.equation text' line rest')
  | branch (line : Nat) : SwapsText x y i condition condition' → SwapsDraft x y j yes yes' →
      SwapsDraft x y k no no' → SwapsDraft x y l rest rest' →
      SwapsDraft x y (i + j + k + l) (.branch condition line yes no rest)
        (.branch condition' line yes' no' rest')
  | loop (line : Nat) : SwapsText x y i condition condition' → SwapsDraft x y j body body' →
      SwapsDraft x y k rest rest' →
      SwapsDraft x y (i + j + k) (.loop condition line body rest)
        (.loop condition' line body' rest')

theorem SwapsDraft.whole {d d' : Draft} (h : SwapsDraft x y n d d') :
    d'.Whole fun _ => True := by
  induction h with
  | done => trivial
  | equation _ _ _ ih => exact ih
  | branch _ _ _ _ _ ihy ihn ihr => exact ⟨trivial, ihy, ihn, ihr⟩
  | loop _ _ _ _ ihb ihr => exact ⟨trivial, ihb, ihr⟩

/-- Blocks of fewer than `size` units that are alike but for literals have such drafts. -/
def SwapsBlocks (x y : Literal) (size : Nat) : Prop :=
  ∀ {i : Nat} {us vs : List SourceUnit}, us.length < size → SwapsUnits x y i us vs →
    ∀ (topLevel : Bool) (line line' : Nat), (draft topLevel line [] us).Whole (x.Fits y) →
      SwapsDraft x y i (draft topLevel line [] us) (draft topLevel line' [] vs)

section Blocks

variable {size : Nat} (hblocks : SwapsBlocks x y size)
include hblocks

theorem swapsDraft_otherwise {a b : Option (List SourceUnit)}
    (hsize : ∀ body ∈ a, body.length < size) (h : Tally (SwapsUnits x y) n a.toList b.toList)
    {line : Nat} (line' : Nat) (hw : (a.elim .done (draft false line [])).Whole (x.Fits y)) :
    SwapsDraft x y n (a.elim .done (draft false line []))
      (b.elim .done (draft false line' [])) := by
  cases a with
  | none =>
    cases b with
    | none => cases h; exact .done
    | some => cases h
  | some us =>
    cases b with
    | none => cases h
    | some vs =>
      cases h with
      | cons h hn =>
        cases hn
        exact hblocks (hsize us rfl) h false line line' hw

/-- The chains after a branch have drafts that are alike but for literals. -/
theorem swapsDraft_chain {a b : Chain}
    (hbranches : ∀ branch ∈ a.branches, branch.body.length < size)
    (hotherwise : ∀ body ∈ a.otherwise, body.length < size)
    (hb : Tally (SwapsBranch x y) m a.branches b.branches)
    (ho : Tally (SwapsUnits x y) n a.otherwise.toList b.otherwise.toList) {line : Nat} (line' : Nat)
    (hw : (a.draft line).Whole (x.Fits y)) :
    SwapsDraft x y (m + n) (a.draft line) (b.draft line') := by
  unfold Chain.draft at hw ⊢
  generalize a.branches = as at hb hbranches hw
  generalize b.branches = bs at hb
  induction hb with
  | nil =>
    rw [Nat.zero_add]
    exact swapsDraft_otherwise hblocks hotherwise ho line' hw
  | @cons i a b j as bs hab _ ih =>
    obtain ⟨hsize, hbranches⟩ := List.forall_mem_cons.1 hbranches
    obtain ⟨hline, k, l, rfl, hcondition, hbody⟩ := hab
    obtain ⟨-, hyes, hno, -⟩ := hw
    have hbranch := SwapsDraft.branch a.line hcondition
      (hblocks hsize hbody false a.line a.line hyes) (ih hbranches hno) .done
    rw [List.map_cons, List.map_cons, Draft.ofChain, Draft.ofChain, Nat.add_assoc, ← hline]
    exact hbranch

variable {topLevel : Bool} {line : Nat} {u v : SourceUnit}

theorem swapsDraft_if (hu : SwapsUnit x y m u v) (hus : SwapsUnits x y n us vs)
    (hsize : us.length < size) (hs : afterKeyword "if" u.text = some s)
    (ht : afterKeyword "if" v.text = some t) (hst : SwapsText x y m s t) (line' : Nat)
    (hw : (draft topLevel line [] (u :: us)).Whole (x.Fits y)) :
    SwapsDraft x y (m + n) (draft topLevel line [] (u :: us))
      (draft topLevel line' [] (v :: vs)) := by
  have hcursor : SwapsCursor x y n ⟨us, u.line⟩ ⟨vs, u.line⟩ := hus
  obtain ⟨first, left, chain, hb, hch⟩ := exists_of_whole_if hs hw
  obtain ⟨last, hd⟩ := draft_branch (ne_closingBrace (by decide) hs) hs hb hch topLevel line
  rw [hd] at hw ⊢
  obtain ⟨hcondition, hyes, hno, hrest⟩ := hw
  obtain ⟨first', left', hb', i, j, hij, ⟨hline, k, l, hkl, hcondition', hbody⟩, hleft⟩ :=
    exists_readBranch hst hcursor hb hcondition
  obtain ⟨chain', hch', k', l', hkl', hbranches, a, b, hab, hotherwise, hafter⟩ :=
    exists_readChain hleft hch (Chain.forall_of_whole hno)
  obtain ⟨last', hd'⟩ :=
    draft_branch (ne_closingBrace (by decide) ht) ht (hu.line ▸ hb') hch' topLevel line'
  have hlength := readBranch_length hb
  obtain ⟨hsmall, hsmall', hsmall''⟩ := readChain_length hch
  dsimp only at *
  have hchain := swapsDraft_chain hblocks (fun branch hm => by have := hsmall branch hm; omega)
    (fun body hm => by have := hsmall' body hm; omega) hbranches hotherwise last' hno
  have hcount : m + n = k + l + (k' + a) + b := by omega
  rw [hd', hcount, ← hu.line]
  exact .branch u.line hcondition' (hblocks (by omega) hbody false u.line u.line hyes) hchain
    (hblocks (by omega) hafter topLevel _ _ hrest)

theorem swapsDraft_while (hu : SwapsUnit x y m u v) (hus : SwapsUnits x y n us vs)
    (hsize : us.length < size) (hi : afterKeyword "if" u.text = none)
    (hi' : afterKeyword "if" v.text = none) (hs : afterKeyword "while" u.text = some s)
    (ht : afterKeyword "while" v.text = some t) (hst : SwapsText x y m s t) (line' : Nat)
    (hw : (draft topLevel line [] (u :: us)).Whole (x.Fits y)) :
    SwapsDraft x y (m + n) (draft topLevel line [] (u :: us))
      (draft topLevel line' [] (v :: vs)) := by
  have hcursor : SwapsCursor x y n ⟨us, u.line⟩ ⟨vs, u.line⟩ := hus
  obtain ⟨branch, left, hb⟩ := exists_of_whole_while hi hs hw
  rw [draft_loop (ne_closingBrace (by decide) hs) hi hs hb] at hw ⊢
  obtain ⟨hcondition, hbody, hrest⟩ := hw
  obtain ⟨branch', left', hb', i, j, hij, ⟨hline, k, l, hkl, hcondition', hbody'⟩, hleft⟩ :=
    exists_readBranch hst hcursor hb hcondition
  have hlength := readBranch_length hb
  dsimp only at *
  have hcount : m + n = k + l + j := by omega
  rw [draft_loop (ne_closingBrace (by decide) ht) hi' ht (hu.line ▸ hb'), hcount, ← hu.line]
  exact .loop u.line hcondition' (hblocks (by omega) hbody' false u.line u.line hbody)
    (hblocks (by omega) hleft topLevel _ _ hrest)

end Blocks

theorem swapsDraft_draft {pieces pieces' : List (List Char)} (hp : SwapsPieces x y m pieces pieces')
    (h : SwapsUnits x y n us vs) {topLevel : Bool} {line : Nat} (line' : Nat)
    (hw : (draft topLevel line pieces us).Whole (x.Fits y)) :
    SwapsDraft x y (m + n) (draft topLevel line pieces us) (draft topLevel line' pieces' vs) := by
  induction hsize : us.length using Nat.strongRecOn
    generalizing us vs n m pieces pieces' topLevel line line' with | _ size ih
  have hblocks : SwapsBlocks x y size := fun hs h topLevel line line' hw => by
    have hd := ih _ hs .nil h line' hw rfl
    rwa [Nat.zero_add] at hd
  cases h with
  | nil =>
    rw [draft] at hw
    rw [draft, draft, ← hp.isEmpty_eq]
    split at hw
    · next he =>
      cases hp.eq_zero he
      rw [if_pos he, if_pos he]
      exact .done
    · split at hw <;> exact hw.elim
  | @cons i u v j us vs hu hus =>
    have hclosing := hu.text_eq_iff (k := closingBrace) (by decide)
    rw [List.length_cons] at hsize
    have hc : u.text ≠ closingBrace := fun hc => by simp [draft_cons, hc, Draft.Whole] at hw
    have hi : Option.Rel (SwapsText x y i) (afterKeyword "if" u.text) (afterKeyword "if" v.text) :=
      rel_afterKeyword (by decide) hu.text
    have hl : Option.Rel (SwapsText x y i) (afterKeyword "while" u.text)
        (afterKeyword "while" v.text) := rel_afterKeyword (by decide) hu.text
    generalize hs : afterKeyword "if" u.text = a at hi
    generalize ht : afterKeyword "if" v.text = b at hi
    generalize hs' : afterKeyword "while" u.text = a' at hl
    generalize ht' : afterKeyword "while" v.text = b' at hl
    -- a statement must be complete where the word of a block stands
    cases hi with
    | some hst =>
      cases hp with
      | cons => simp [draft_cons, hc, hs, Draft.Whole] at hw
      | nil =>
        rw [Nat.zero_add]
        exact swapsDraft_if hblocks hu hus (by omega) hs ht hst line' hw
    | none =>
      cases hl with
      | some hst =>
        cases hp with
        | cons => simp [draft_cons, hc, hs, hs', Draft.Whole] at hw
        | nil =>
          rw [Nat.zero_add]
          exact swapsDraft_while hblocks hu hus (by omega) hs ht hs' ht' hst line' hw
      | none =>
        rw [draft_cons, if_neg hc, hs, hs'] at hw ⊢
        rw [draft_cons, if_neg (mt hclosing.2 hc), ht, ht']
        dsimp only at hw ⊢
        rw [← hu.text.getLast?_eq]
        by_cases hlast : u.text.getLast? = some ';'
        · have hd := SwapsText.dropLast hu.text (by simp [hlast])
          have htext := swapsText_joinPieces (hp.append (.singleton hd))
          rw [if_pos hlast] at hw
          rw [if_pos hlast, if_pos hlast, ← htext.isEmpty_eq, ← Nat.add_assoc, ← hu.line]
          split at hw
          · next he =>
            rw [if_pos he, if_pos he, htext.eq_zero (List.isEmpty_iff.1 he ▸ List.not_mem_nil),
              Nat.zero_add]
            exact hblocks (by omega) hus topLevel u.line u.line hw
          · next he =>
            rw [if_neg he, if_neg he]
            exact .equation u.line htext (hblocks (by omega) hus topLevel u.line u.line hw)
        · rw [if_neg hlast] at hw
          rw [if_neg hlast, if_neg hlast, ← Nat.add_assoc]
          exact ih us.length (by omega) (hp.append (.singleton hu.text)) hus v.line hw rfl

/-- The drafts of two scripts that differ in one literal. -/
theorem swapsDraft_ofScript {before after : List Char} (h : Mode.code.after before = .code)
    (hw : (Draft.ofScript (before ++ x.quoted ++ after)).Whole (x.Fits y)) :
    SwapsDraft x y 1 (Draft.ofScript (before ++ x.quoted ++ after))
      (Draft.ofScript (before ++ y.quoted ++ after)) := by
  have hd := swapsDraft_draft .nil (swapsUnits_units h after) 1 hw
  rwa [Nat.zero_add] at hd

end Script

end FormulaScript
