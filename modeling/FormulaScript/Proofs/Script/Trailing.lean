import FormulaScript.Proofs.Script.Comments
import FormulaScript.Proofs.Script.Endings
import FormulaScript.Proofs.Script.Ordering

/-!
# Comments behind a line

A comment behind a bare text and a space counts for nothing: what is read is the text, the space and
what follows the comment. A semicolon that follows a block comment ends the unit of the text, with
the space in front of it or without; the space shows only in what is quoted behind a header. No
semicolon can follow a comment up to the end of the line, so the unit is not ended, which is a
fault.
-/

namespace FormulaScript.Script

open Text

variable {e after comment text more : List Char} {keyword : String}

/-! ## Units -/

theorem mem_of_mem_foldl_push {pending : List Char} (h : c ∈ text.foldl push pending) :
    c ∈ text ∨ c ∈ pending ∨ c = ' ' := by
  induction text generalizing pending with
  | nil => exact .inr (.inl h)
  | cons d text ih =>
    have hp (hc : c ∈ push pending d) : c = d ∨ c ∈ pending ∨ c = ' ' := by
      unfold push at hc
      split at hc
      · split at hc
        · exact .inr (.inl hc)
        · exact .inr ((List.mem_cons.1 hc).symm)
      · exact (List.mem_cons.1 hc).imp_right .inl
    rcases ih h with hc | hc | hc
    · exact .inl (List.mem_cons_of_mem d hc)
    · exact (hp hc).imp_left fun (hd : c = d) => hd ▸ List.mem_cons_self
    · exact .inr (.inr hc)

theorem blank_foldl_push {pending : List Char} :
    (∀ c ∈ text.foldl push pending, isBlank c) ↔
      (∀ c ∈ text, isBlank c) ∧ ∀ c ∈ pending, isBlank c := by
  induction text generalizing pending with
  | nil => simp
  | cons d text ih =>
    have hp : (∀ c ∈ push pending d, isBlank c) ↔ isBlank d ∧ ∀ c ∈ pending, isBlank c := by
      by_cases hd : isBlank d
      · obtain ⟨blanks, hb, he⟩ := exists_push pending hd
        rw [he, List.forall_mem_append]
        exact ⟨fun h => ⟨hd, h.2⟩, fun h => ⟨hb, h.2⟩⟩
      · rw [push_of_not_blank (Bool.eq_false_iff.2 hd), List.forall_mem_cons]
    rw [List.foldl_cons, ih, hp, List.forall_mem_cons]
    tauto

/-- What is left of a bare text, without the blanks in front. -/
def kept (e : List Char) : List Char := trimLeft (e.foldl push []).reverse

theorem kept_eq_nil_iff : kept e = [] ↔ ∀ c ∈ e, isBlank c := by
  have hr : (∀ c ∈ (e.foldl push []).reverse, isBlank c) ↔ ∀ c ∈ e.foldl push [], isBlank c := by
    simp only [List.mem_reverse]
  rw [kept, trimLeft_eq_nil_iff, hr, blank_foldl_push]
  simp

theorem units_bare (h : Bare e) : units e = flush 1 (e.foldl push []) := by
  have hu : unitsFrom .code [] 1 (e ++ []) = unitsFrom .code (e.foldl push []) 1 [] :=
    unitsFrom_run h nofun
  rwa [List.append_nil, unitsFrom_nil] at hu

/-- A bare text that is not blank is one unit, and bare too. -/
theorem units_of_not_blank (h : Bare e) (hn : ∃ c ∈ e, isBlank c = false) :
    ∃ text, units e = [⟨1, text⟩] ∧ ∀ c ∈ text, c ∉ structural := by
  obtain ⟨c, hm, hb⟩ := hn
  have hne : trim (e.foldl push []).reverse ≠ [] := fun ht => by
    have hf : flush 1 (e.foldl push []) = [] := by
      rw [flush, ht]
      rfl
    have hall := blank_of_flush hf
    rw [(blank_foldl_push.1 hall).1 c hm] at hb
    cases hb
  refine ⟨trim (e.foldl push []).reverse, ?_, fun d hd => ?_⟩
  · rw [units_bare h]
    exact if_neg fun he => hne (List.isEmpty_iff.1 he)
  · rcases mem_of_mem_foldl_push (List.mem_reverse.1 (mem_of_mem_trim hd)) with hm | hm | rfl
    · exact h.symbols d hm
    · cases hm
    · decide

theorem units_spaced (h : Bare e) (rest : List Char) :
    units (e ++ ' ' :: rest) = unitsFrom .code (push (e.foldl push []) ' ') 1 rest := by
  rw [units, unitsFrom_run h (by simp), unitsFrom_cons (by decide) fun he => absurd he (by decide)]

theorem units_of_space (h : Bare e) : units (e ++ [' ']) = units e := by
  obtain ⟨blanks, hb, hp⟩ := exists_push (e.foldl push []) (by decide : isBlank ' ')
  rw [units_spaced h, unitsFrom_nil, units_bare h, hp, flush_append_of_blank hb]

/-- A comment of one line counts for nothing. -/
theorem units_of_comment (h : Bare e) (hc : Comment after comment) (hn : '\n' ∉ comment) :
    units (e ++ ' ' :: (comment ++ after)) = units (e ++ ' ' :: after) := by
  rw [units_spaced h, units_spaced h, unitsFrom_of_comment hc, List.count_eq_zero.2 hn,
    List.replicate_zero, List.nil_append]

theorem units_statement (h : Bare e) : units (e ++ [';']) = [⟨1, kept e ++ [';']⟩] := by
  rw [units, unitsFrom_run h (by simp), unitsFrom_semicolon, unitsFrom_nil, flush_semicolon]
  rfl

theorem push_space_cases (pending : List Char) :
    push pending ' ' = pending ∨ push pending ' ' = ' ' :: pending := by
  rw [push_space (.inl rfl)]
  split
  · exact .inl rfl
  · exact .inr rfl

/-- A space behind the text is kept, or it is not. -/
theorem units_spaced_statement (h : Bare e) : ∃ blanks ∈ [[], [' ']],
    units (e ++ ' ' :: [';']) = [⟨1, kept e ++ blanks ++ [';']⟩] := by
  rw [units_spaced h, unitsFrom_semicolon, unitsFrom_nil, flush_semicolon]
  rcases push_space_cases (e.foldl push []) with hp | hp
  · exact ⟨[], by simp, by rw [hp, List.append_nil]; rfl⟩
  · rw [hp, List.reverse_cons]
    by_cases hk : kept e = []
    · have hb : ∀ c ∈ (e.foldl push []).reverse, isBlank c := trimLeft_eq_nil_iff.1 hk
      refine ⟨[], by simp, ?_⟩
      rw [trimLeft_append_of_blank hb, hk]
      rfl
    · exact ⟨[' '], by simp, by rw [trimLeft_append_of_ne hk]; rfl⟩

/-! ## Headers -/

/-- No condition is read where no unit follows it. -/
theorem exists_fault_readBranch (keyword : String) (line : Nat) (start : List Char) :
    ∃ problem, readBranch keyword line start ⟨[], line⟩ = .error (fault problem line) := by
  have hamong : Among [⟨line, start⟩] ⟨[], line⟩ :=
    ⟨List.nil_subset _, ⟨line, start⟩, List.mem_singleton_self _, rfl⟩
  cases hb : readBranch keyword line start ⟨[], line⟩ with
  | ok result => exact absurd (readBranch_length hb) (Nat.not_lt_zero _)
  | error problem =>
    obtain ⟨unit, hu, problem, -, rfl⟩ := (lands_readBranch hamong keyword line start).of_error hb
    rw [List.mem_singleton.1 hu]
    exact ⟨problem, rfl⟩

/-- A text without parentheses behind another closes none of it. -/
theorem scanParentheses_append_of_not_mem (h : ∀ c ∈ more, c ≠ '(' ∧ c ≠ ')') (level : Nat)
    (text : List Char) : scanParentheses level (text ++ more) =
      match scanParentheses level text with
      | .closed before after => .closed before (after ++ more)
      | .unclosed level => .unclosed level := by
  induction text generalizing level with
  | nil =>
    induction more with
    | nil => rfl
    | cons c more ih =>
      obtain ⟨⟨ho, hc⟩, h⟩ := List.forall_mem_cons.1 h
      have hs : scanParentheses level more = .unclosed level := ih h
      rw [List.nil_append, scanParentheses.eq_2, if_neg ho, if_neg hc, hs]
      rfl
  | cons c text ih =>
    rw [List.cons_append, scanParentheses, scanParentheses]
    split
    · rw [ih]
      cases scanParentheses (level + 1) text <;> rfl
    · split
      · split
        · rfl
        · rw [ih]
          cases scanParentheses (level - 1) text <;> rfl
      · rw [ih]
        cases scanParentheses level text <;> rfl

/-- What is wrong with a header that a semicolon ends, given what follows its parenthesis. -/
def endedProblem (text : List Char) : Problem :=
  match scanParentheses 1 text with
  | .closed _ after => .textAfterCondition (String.ofList (trimLeft after ++ [';']))
  | .unclosed _ => .unbalancedCondition

theorem readBranch_ended (keyword : String) (line : Nat) (text : List Char) :
    readBranch keyword line ('(' :: text ++ [';']) ⟨[], line⟩ =
      .error (fault (endedProblem text) line) := by
  have hs : conditionStart ('(' :: (text ++ [';'])) ⟨[], line⟩ =
      ('(' :: (text ++ [';']), ⟨[], line⟩) := rfl
  rw [List.cons_append, readBranch, readCondition_of_start hs]
  dsimp only
  rw [readPieces, scanParentheses_append_of_not_mem (by simp), endedProblem]
  cases scanParentheses 1 text with
  | unclosed level => rfl
  | closed before after =>
    have hne : (!(trim (after ++ [';'])).isEmpty) = true := by simp [trim_statement]
    dsimp only
    rw [if_pos hne, trim_statement]

/-- A blank in front of the semicolon shows in what is quoted behind the condition only. -/
theorem endedProblem_space (text : List Char) : endedProblem (text ++ [' ']) = endedProblem text ∨
    ∃ found, found ≠ [] ∧
      endedProblem text = .textAfterCondition (String.ofList (found ++ [';'])) ∧
      endedProblem (text ++ [' ']) = .textAfterCondition (String.ofList (found ++ [' ', ';'])) := by
  rw [endedProblem, scanParentheses_append_of_not_mem (by simp), endedProblem]
  cases scanParentheses 1 text with
  | unclosed level => exact .inl rfl
  | closed before after =>
    by_cases hf : trimLeft after = []
    · refine .inl ?_
      dsimp only
      rw [trimLeft_append_of_blank (trimLeft_eq_nil_iff.1 hf), hf]
      rfl
    · refine .inr ⟨trimLeft after, hf, rfl, ?_⟩
      dsimp only
      rw [trimLeft_append_of_ne hf, List.append_assoc]
      rfl

theorem afterKeyword_ended {blanks : List Char} (hb : ∀ c ∈ blanks, isBlank c) :
    afterKeyword keyword (keyword.toList ++ blanks ++ '(' :: text ++ [';']) =
      some ('(' :: text ++ [';']) := by
  have hp : keyword.toList.isPrefixOf (keyword.toList ++ (blanks ++ ('(' :: text ++ [';']))) :=
    List.isPrefixOf_iff_prefix.2 (List.prefix_append _ _)
  have ht : trim (blanks ++ ('(' :: text ++ [';'])) = '(' :: text ++ [';'] := by
    rw [← List.append_assoc, trim_statement, trimLeft_append_of_blank hb,
      trimLeft_cons (by decide)]
  simp only [List.append_assoc]
  rw [afterKeyword, if_pos hp, drop_word, ht]
  rfl

theorem opens_of_space (h : Opens keyword (text ++ [' '])) : Opens keyword text := by
  obtain ⟨blanks, rest, hb, ht⟩ := h
  rcases List.eq_nil_or_concat' rest with rfl | ⟨rest, c, rfl⟩
  · have hl := congrArg List.getLast? ht
    simp at hl
  · rw [← List.cons_append, ← List.append_assoc] at ht
    exact ⟨blanks, rest, hb, (List.append_inj' ht rfl).1⟩

/-! ## Drafts -/

theorem prefix_of_afterKeyword (h : afterKeyword keyword text = some start) :
    keyword.toList <+: text := by
  unfold afterKeyword at h
  split at h
  · next hp => exact List.isPrefixOf_iff_prefix.1 hp
  · cases h

/-- A header whose branch is not read is a fault. -/
theorem draft_of_error {problem : Diagnostic} (hk : keyword ∈ ["if", "while"])
    (ha : afterKeyword keyword text = some start)
    (hb : readBranch keyword line start ⟨[], line⟩ = .error problem) :
    draft true line [] [⟨line, text⟩] = .broken problem := by
  obtain ⟨more, hm⟩ := prefix_of_afterKeyword ha
  rcases (by simpa using hk : keyword = "if" ∨ keyword = "while") with rfl | rfl
  · have hc : text ≠ closingBrace := by simp [← hm, closingBrace]
    rw [draft_cons, if_neg hc, ha]
    dsimp only
    rw [if_neg (by simp), hb]
  · have hc : text ≠ closingBrace := by simp [← hm, closingBrace]
    have hi : afterKeyword "if" text = none := hm ▸ rfl
    rw [draft_cons, if_neg hc, hi, ha]
    dsimp only
    rw [if_neg (by simp), hb]

theorem draft_header_ended (hk : keyword ∈ ["if", "while"]) {blanks : List Char}
    (hb : ∀ c ∈ blanks, isBlank c) (line : Nat) (text : List Char) :
    draft true line [] [⟨line, keyword.toList ++ blanks ++ '(' :: text ++ [';']⟩] =
      .broken (fault (endedProblem text) line) :=
  draft_of_error hk (afterKeyword_ended hb) (readBranch_ended keyword line text)

/-- A line that is no header is a statement, or nothing. -/
theorem draft_of_not_opens (ho : ∀ keyword ∈ ["if", "while"], ¬ Opens keyword text) (line : Nat) :
    draft true line [] [⟨line, text ++ [';']⟩] =
      if joinPieces [text] = [] then .done else .equation (joinPieces [text]) line .done := by
  have hnone (keyword : String) (hk : keyword ∈ ["if", "while"]) :
      afterKeyword keyword (text ++ [';']) = none := afterKeyword_of_not_opens hk (ho keyword hk)
  have hd : (text ++ [';']).dropLast = text := List.dropLast_concat
  rw [draft_ended (hnone "if" (by simp)) (hnone "while" (by simp)) List.getLast?_concat, draft_nil,
    hd]
  rfl

/-- A space in front of the semicolon of a line makes no difference but in what is quoted behind a
header. -/
theorem draft_space (line : Nat) (text : List Char) :
    draft true line [] [⟨line, text ++ [' '] ++ [';']⟩] =
      draft true line [] [⟨line, text ++ [';']⟩] ∨
    ∃ found, found ≠ [] ∧
      draft true line [] [⟨line, text ++ [';']⟩] =
        .broken (fault (.textAfterCondition (String.ofList (found ++ [';']))) line) ∧
      draft true line [] [⟨line, text ++ [' '] ++ [';']⟩] =
        .broken (fault (.textAfterCondition (String.ofList (found ++ [' ', ';']))) line) := by
  by_cases ho : ∃ keyword ∈ ["if", "while"], Opens keyword text
  · obtain ⟨keyword, hk, blanks, text, hb, rfl⟩ := ho
    have hd := draft_header_ended hk hb line (text ++ [' '])
    rw [← List.cons_append, ← List.append_assoc] at hd
    rw [hd, draft_header_ended hk hb]
    rcases endedProblem_space text with he | ⟨found, hf, he, he'⟩
    · exact .inl (by rw [he])
    · exact .inr ⟨found, hf, by rw [he], by rw [he']⟩
  · have hj : joinPieces [text ++ [' ']] = joinPieces [text] := by
      have hs : ∀ c ∈ [' '], isBlank c := List.forall_mem_singleton.2 (by decide)
      simp only [joinPieces, List.map_cons, trim_append_of_blank hs]
    have hno : ∀ keyword ∈ ["if", "while"], ¬ Opens keyword text := fun keyword hk hopens =>
      ho ⟨keyword, hk, hopens⟩
    have hno' : ∀ keyword ∈ ["if", "while"], ¬ Opens keyword (text ++ [' ']) :=
      fun keyword hk hopens => hno keyword hk (opens_of_space hopens)
    rw [draft_of_not_opens hno, draft_of_not_opens hno', hj]
    exact .inl rfl

/-- A line without a semicolon is a fault. -/
theorem exists_fault_draft (hc : text ≠ closingBrace) (hl : text.getLast? ≠ some ';')
    (line : Nat) : ∃ problem, draft true line [] [⟨line, text⟩] = .broken (fault problem line) ∧
      ((∀ keyword ∈ ["if", "while"], afterKeyword keyword text = none) →
        problem = .unexpectedEndOfScript) := by
  by_cases hh : ∀ keyword ∈ ["if", "while"], afterKeyword keyword text = none
  · refine ⟨.unexpectedEndOfScript, ?_, fun _ => rfl⟩
    rw [draft_cons, if_neg hc, hh "if" (by simp), hh "while" (by simp)]
    dsimp only
    rw [if_neg hl, draft]
    rfl
  · obtain ⟨keyword, hk, hn⟩ := by simpa only [not_forall, exists_prop] using hh
    obtain ⟨start, ha⟩ := Option.ne_none_iff_exists'.1 hn
    obtain ⟨problem, hb⟩ := exists_fault_readBranch keyword line start
    exact ⟨problem, draft_of_error hk ha hb, fun h => absurd (h keyword hk) hn⟩

/-! ## Lines -/

/-- A block comment is one whatever follows it. -/
theorem Comment.of_block (h : Comment after comment) (hb : ['/', '*'] <+: comment)
    (after' : List Char) : Comment after' comment ∧ ∃ front, comment = front ++ ['/'] := by
  cases h with
  | @block body h => exact ⟨.block h, '/' :: '*' :: body ++ ['*'], by simp⟩
  | line | hash => simp at hb

/-- A comment up to the end of the line takes in a semicolon that is added. -/
theorem Comment.append_semicolon (h : Comment [] comment) (hb : ¬ ['/', '*'] <+: comment) :
    Comment [] (comment ++ [';']) := by
  cases h with
  | block => simp at hb
  | line hn => exact .line (by simpa using hn) nofun
  | hash hn => exact .hash (by simpa using hn) nofun

theorem ofScript_block_comment (h : Bare e) (hc : Comment [';'] comment) (hn : '\n' ∉ comment) :
    let ended := Draft.ofScript (e ++ [';'])
    let commented := Draft.ofScript (e ++ ' ' :: (comment ++ [';']))
    commented = ended ∨ ∃ found, found ≠ [] ∧
      ended = .broken (fault (.textAfterCondition (String.ofList (found ++ [';']))) 1) ∧
      commented =
        .broken (fault (.textAfterCondition (String.ofList (found ++ [' ', ';']))) 1) := by
  intro ended commented
  obtain ⟨blanks, hb, hu⟩ := units_spaced_statement h
  have hcommented : commented = draft true 1 [] [⟨1, kept e ++ blanks ++ [';']⟩] :=
    congrArg (draft true 1 []) ((units_of_comment h hc hn).trans hu)
  have hended : ended = draft true 1 [] [⟨1, kept e ++ [';']⟩] :=
    congrArg (draft true 1 []) (units_statement h)
  rw [hcommented, hended]
  rcases (by simpa using hb : blanks = [] ∨ blanks = [' ']) with rfl | rfl
  · rw [List.append_nil]
    exact .inl rfl
  · exact draft_space 1 (kept e)

theorem ofScript_line_comment (h : Bare e) (hc : Comment [] comment) (hn : '\n' ∉ comment) :
    let ended := Draft.ofScript (e ++ [';'])
    let commented := Draft.ofScript (e ++ ' ' :: comment)
    ((∀ c ∈ e, isBlank c) → commented = ended) ∧
    ((∃ c ∈ e, isBlank c = false) → ∃ problem, commented = .broken (fault problem 1) ∧
      ((∀ unit ∈ units e, ∀ keyword ∈ ["if", "while"], afterKeyword keyword unit.text = none) →
        problem = .unexpectedEndOfScript)) := by
  intro ended commented
  have hu : units (e ++ ' ' :: comment) = units e := by
    have hcomment := units_of_comment h hc hn
    rwa [List.append_nil, units_of_space h] at hcomment
  have hcommented : commented = draft true 1 [] (units e) := congrArg (draft true 1 []) hu
  have hended : ended = draft true 1 [] [⟨1, kept e ++ [';']⟩] :=
    congrArg (draft true 1 []) (units_statement h)
  rw [hcommented]
  refine ⟨fun hb => ?_, fun hn => ?_⟩
  · rw [hended, kept_eq_nil_iff.2 hb, List.nil_append, draft_semicolon, units_bare h,
      flush_of_blank, draft_nil]
    exact blank_foldl_push.2 ⟨hb, List.forall_mem_nil _⟩
  · obtain ⟨text, ht, hs⟩ := units_of_not_blank h hn
    have hclosing : text ≠ closingBrace := fun he =>
      hs '}' (he ▸ List.mem_singleton_self _) (by decide)
    have hlast : text.getLast? ≠ some ';' := fun hl => hs ';' (List.mem_of_getLast? hl) (by decide)
    obtain ⟨problem, hd, hp⟩ := exists_fault_draft hclosing hlast 1
    rw [ht]
    exact ⟨problem, hd, fun hh => hp (hh _ List.mem_cons_self)⟩

end FormulaScript.Script
