import FormulaScript.Proofs.Script.Units
import FormulaScript.Proofs.Text.Swaps

/-!
# Literals in the structure of a script

One string literal of a script in place of another leaves its units as they are: what is in a
literal neither ends a unit nor starts a comment.
-/

namespace FormulaScript

namespace Script

open Text

/-! ## Units -/

/-- The units are alike but for `n` literals. -/
structure SwapsUnit (x y : Literal) (n : Nat) (u v : SourceUnit) : Prop where
  line : u.line = v.line
  text : SwapsText x y n u.text v.text

/-- The lists of units are alike but for `n` literals. -/
abbrev SwapsUnits (x y : Literal) : Nat → List SourceUnit → List SourceUnit → Prop :=
  Tally (SwapsUnit x y)

variable {x y : Literal} {n : Nat}

theorem SwapsUnits.refl (us : List SourceUnit) : SwapsUnits x y 0 us us := by
  induction us with
  | nil => exact .nil
  | cons u us ih => exact .cons ⟨rfl, .refl u.text⟩ ih

/-- The mode after a text that starts in a mode. -/
def Mode.after : Mode → List Char → Mode
  | mode, [] => mode
  | mode, '\n' :: rest => mode.nextLine.after rest
  | .blockComment, '*' :: '/' :: rest => after .code rest
  | .blockComment, _ :: rest => after .blockComment rest
  | .lineComment, _ :: rest => after .lineComment rest
  | .string, c :: rest => after (if c = '"' then .code else .string) rest
  | .code, '"' :: rest => after .string rest
  | .code, '/' :: '*' :: rest => after .blockComment rest
  | .code, '/' :: '/' :: rest => after .lineComment rest
  | .code, '#' :: rest => after .lineComment rest
  | .code, _ :: rest => after .code rest

/-! ## Two parts of a text -/

/-- Whether two characters are one mark of a comment where they are read in a mode. -/
def Mode.joins : Mode → Char → Char → Bool
  | .code, '/', '*' | .code, '/', '/' | .blockComment, '*', '/' => true
  | _, _, _ => false

/-- The mode between two parts of a text that starts in a mode; none if they part a mark of a
comment. -/
def Mode.between : Mode → List Char → List Char → Option Mode
  | mode, [], _ => some mode
  | mode, [c], after => if after.head?.any (mode.joins c) then none else some (mode.after [c])
  | mode, c :: d :: rest, after =>
    if mode.joins c d then (mode.after [c, d]).between rest after
    else (mode.after [c]).between (d :: rest) after

theorem Mode.after_cons (h : Mode.joins mode c d = false) (rest : List Char) :
    mode.after (c :: d :: rest) = (mode.after [c]).after (d :: rest) := by
  rw [Mode.after.eq_def]
  split
  all_goals simp_all [Mode.joins, Mode.after]

theorem Mode.after_mark (h : Mode.joins mode c d) (rest : List Char) :
    mode.after (c :: d :: rest) = (mode.after [c, d]).after rest := by
  unfold Mode.joins at h
  split at h
  · rw [Mode.after, Mode.after, Mode.after]
  · rw [Mode.after, Mode.after, Mode.after]
  · rw [Mode.after, Mode.after, Mode.after]
  · cases h

theorem Mode.joins_of_ne (hd : d ≠ '/' ∧ d ≠ '*') (mode : Mode) (c : Char) :
    mode.joins c d = false := by
  unfold Mode.joins
  split
  · exact absurd rfl hd.2
  · exact absurd rfl hd.1
  · exact absurd rfl hd.1
  · rfl

/-- No mark goes over the place in front of a character that no mark ends with. -/
theorem Mode.between_of_head? {rest : List Char} (h : ∀ d ∈ rest.head?, d ≠ '/' ∧ d ≠ '*') :
    ∀ (mode : Mode) (text : List Char), mode.between text rest = some (mode.after text)
  | mode, [] => by rw [Mode.between, Mode.after]
  | mode, [c] => by
    have hj : rest.head?.any (mode.joins c) = false :=
      (Option.any_eq_false _ _).2 fun d hd => joins_of_ne (h d hd) mode c
    rw [Mode.between, hj]
    rfl
  | mode, c :: d :: text => by
    rw [Mode.between]
    cases hj : mode.joins c d with
    | true => rw [if_pos rfl, between_of_head? h, ← after_mark hj]
    | false => rw [if_neg nofun, between_of_head? h, ← after_cons hj]

theorem unitsFrom_mark {mode : Mode} (h : mode.joins c d) (pending : List Char) (line : Nat)
    (rest : List Char) : unitsFrom mode pending line (c :: d :: rest) =
      unitsFrom (mode.after [c, d]) pending line rest := by
  unfold Mode.joins at h
  split at h
  · rw [unitsFrom]
    rfl
  · rw [unitsFrom]
    rfl
  · rw [unitsFrom]
    rfl
  · cases h

/-- A character that no mark begins with is read whatever follows it. -/
theorem exists_read (mode : Mode) (c : Char) (pending : List Char) (line : Nat) :
    ∃ us pending' line', ∀ rest, rest.head?.any (mode.joins c) = false →
      unitsFrom mode pending line (c :: rest) =
        us ++ unitsFrom (mode.after [c]) pending' line' rest := by
  by_cases hn : c = '\n'
  · subst hn
    refine ⟨flush line pending, [], line + 1, fun rest _ => ?_⟩
    rw [unitsFrom_newline, Mode.after, Mode.after]
  cases mode with
  | blockComment =>
    refine ⟨[], pending, line, fun rest hj => ?_⟩
    have hm : Mode.blockComment.after [c] = .blockComment := by simp [Mode.after]
    rw [hm]
    refine unitsFrom_comment hn ?_
    rintro rfl d hd rfl
    simp [Option.mem_def.1 hd, Mode.joins] at hj
  | lineComment =>
    have hm : Mode.lineComment.after [c] = .lineComment := by simp [Mode.after]
    rw [hm]
    exact ⟨[], pending, line, fun rest _ => unitsFrom_lineComment hn⟩
  | string =>
    have hm : Mode.string.after [c] = if c = '"' then .code else .string := by
      simp [Mode.after]
    rw [hm]
    exact ⟨[], c :: pending, line, fun rest _ => unitsFrom.eq_6 _ _ _ _ hn⟩
  | code =>
    by_cases hq : c = '"'
    · subst hq
      exact ⟨[], '"' :: pending, line, fun rest _ => unitsFrom.eq_7 ..⟩
    by_cases hh : c = '#'
    · subst hh
      exact ⟨[], pending, line, fun rest _ => unitsFrom.eq_10 ..⟩
    have hm : Mode.code.after [c] = .code := by simp [Mode.after]
    rw [hm]
    by_cases ho : c = '{'
    · subst ho
      exact ⟨flush line pending ++ [⟨line, openingBrace⟩], [], line, fun rest _ => by
        rw [unitsFrom_opening, List.append_assoc, List.singleton_append]⟩
    by_cases hcl : c = '}'
    · subst hcl
      exact ⟨flush line pending ++ [⟨line, closingBrace⟩], [], line, fun rest _ => by
        rw [unitsFrom_closing, List.append_assoc, List.singleton_append]⟩
    by_cases hsemi : c = ';'
    · subst hsemi
      exact ⟨flush line (';' :: pending), [], line, fun rest _ => unitsFrom_semicolon⟩
    have hs : c ∉ structural := by simp_all [structural]
    refine ⟨[], push pending c, line, fun rest hj => unitsFrom_cons hs ?_⟩
    rintro rfl d hd
    refine ⟨?_, ?_⟩
    all_goals
      rintro rfl
      simp [Option.mem_def.1 hd, Mode.joins] at hj

/-- A text is read in the same way whatever follows it, if no mark goes over its end. -/
theorem exists_reading : ∀ (mode : Mode) (text pending : List Char) (line : Nat),
    ∃ us pending' line', ∀ rest last, mode.between text rest = some last →
      unitsFrom mode pending line (text ++ rest) = us ++ unitsFrom last pending' line' rest
  | mode, [], pending, line => by
    refine ⟨[], pending, line, fun rest last h => ?_⟩
    cases h
    rfl
  | mode, [c], pending, line => by
    obtain ⟨us, pending', line', h⟩ := exists_read mode c pending line
    refine ⟨us, pending', line', fun rest last hl => ?_⟩
    rw [Mode.between] at hl
    split at hl
    · cases hl
    · next hj =>
      cases hl
      exact h rest (Bool.eq_false_iff.2 hj)
  | mode, c :: d :: text, pending, line => by
    cases hj : mode.joins c d with
    | true =>
      obtain ⟨us, pending', line', h⟩ := exists_reading (mode.after [c, d]) text pending line
      refine ⟨us, pending', line', fun rest last hl => ?_⟩
      rw [Mode.between, if_pos hj] at hl
      exact (unitsFrom_mark hj pending line (text ++ rest)).trans (h rest last hl)
    | false =>
      obtain ⟨us, pending', line', h⟩ := exists_read mode c pending line
      obtain ⟨us', pending'', line'', h'⟩ :=
        exists_reading (mode.after [c]) (d :: text) pending' line'
      refine ⟨us ++ us', pending'', line'', fun rest last hl => ?_⟩
      rw [Mode.between, if_neg (Bool.eq_false_iff.1 hj)] at hl
      exact (h (d :: text ++ rest) hj).trans (by rw [h' rest last hl, List.append_assoc])

/-! ## Quoted texts -/

theorem unitsFrom_string {text : List Char} (hq : '"' ∉ text) (hn : '\n' ∉ text)
    (pending : List Char) (line : Nat) (rest : List Char) :
    unitsFrom .string pending line (text ++ '"' :: rest) =
      unitsFrom .code ('"' :: text.reverse ++ pending) line rest := by
  induction text generalizing pending with
  | nil =>
    rw [List.nil_append, unitsFrom]
    · rfl
    · simp
  | cons c text ih =>
    rw [List.mem_cons, not_or] at hq hn
    rw [List.cons_append, unitsFrom]
    · rw [if_neg (Ne.symm hq.1), ih hq.2 hn.2]
      simp
    · exact fun hc => hn.1 hc.symm

theorem unitsFrom_quoted (pending : List Char) (line : Nat) (rest : List Char) :
    unitsFrom .code pending line (x.quoted ++ rest) =
      unitsFrom .code (x.quoted.reverse ++ pending) line rest := by
  have ha : x.quoted ++ rest = '"' :: (x.text ++ '"' :: rest) := by simp
  rw [ha, unitsFrom, unitsFrom_string x.quote x.newline]
  simp

/-! ## Units after a literal -/

/-- The units that are begun, in reverse, are alike but for `n` literals. -/
abbrev SwapsPending (x y : Literal) : Nat → List Char → List Char → Prop :=
  Swaps ('"' :: (x.text.reverse ++ ['"'])) ('"' :: (y.text.reverse ++ ['"']))

theorem SwapsPending.flush {pending pending' : List Char} (h : SwapsPending x y n pending pending')
    (line : Nat) : SwapsUnits x y n (flush line pending) (flush line pending') := by
  have ht := (SwapsText.of_reverse h).trim
  unfold Script.flush
  dsimp only
  rw [← ht.isEmpty_eq]
  split
  · next he =>
    cases ht.eq_zero (List.isEmpty_iff.1 he ▸ List.not_mem_nil)
    exact .nil
  · exact .singleton ⟨rfl, ht⟩

theorem SwapsPending.push {pending pending' : List Char} (h : SwapsPending x y n pending pending')
    (c : Char) : SwapsPending x y n (push pending c) (push pending' c) := by
  unfold Script.push
  rw [← h.isEmpty_eq, ← h.head?_eq]
  split
  · split
    · exact h
    · exact .cons ' ' h
  · exact .cons c h

/-- The units of one text, from begun units that are alike but for literals, are so too. -/
theorem swapsUnits_unitsFrom {pending pending' : List Char}
    (h : SwapsPending x y n pending pending')
    (mode : Mode) (line : Nat) (text : List Char) :
    SwapsUnits x y n (unitsFrom mode pending line text) (unitsFrom mode pending' line text) := by
  have brace (text : List Char) (line : Nat) : SwapsUnit x y 0 ⟨line, text⟩ ⟨line, text⟩ :=
    ⟨rfl, .refl text⟩
  fun_induction unitsFrom mode pending line text generalizing pending' n with
  | case1 mode pending line =>
    rw [unitsFrom]
    exact h.flush line
  | case2 mode pending line rest ih =>
    rw [unitsFrom_newline]
    exact (h.flush line).append (ih .nil)
  | case3 pending line rest ih | case8 pending line rest ih | case9 pending line rest ih
  | case10 pending line rest ih =>
    rw [unitsFrom]
    exact ih h
  | case4 pending line c rest hn hs ih =>
    rw [unitsFrom]
    · exact ih h
    · exact hn
    · exact hs
  | case5 pending line c rest hn ih =>
    rw [unitsFrom]
    · exact ih h
    · exact hn
  | case6 pending line c rest hn ih =>
    rw [unitsFrom]
    · exact ih (.cons c h)
    · exact hn
  | case7 pending line rest ih =>
    rw [unitsFrom]
    exact ih (.cons '"' h)
  | case11 pending line c rest hn hq hb hl hh hc ih =>
    rw [unitsFrom]
    · rw [if_pos hc]
      simpa using (h.flush line).append (.cons (brace [c] line) (ih .nil))
    all_goals assumption
  | case12 pending line rest hn hq hb hl hh hc ih =>
    rw [unitsFrom]
    · simp only [hc, if_true]
      exact (SwapsPending.flush (.cons ';' h) line).append (ih .nil)
    all_goals assumption
  | case13 pending line c rest hn hq hb hl hh hc hs ih =>
    rw [unitsFrom]
    · rw [if_neg hc, if_neg hs]
      exact ih (h.push c)
    all_goals assumption

/-- The units of two scripts that differ in one literal. -/
theorem swapsUnits_units {before : List Char} (h : Mode.code.after before = .code)
    (after : List Char) : SwapsUnits x y 1 (units (before ++ x.quoted ++ after))
      (units (before ++ y.quoted ++ after)) := by
  obtain ⟨us, pending, line, hu⟩ := exists_reading .code before [] 1
  have hunits (z : Literal) : units (before ++ z.quoted ++ after) =
      us ++ unitsFrom .code (z.quoted.reverse ++ pending) line after := by
    rw [← unitsFrom_quoted, List.append_assoc]
    exact hu _ _ ((Mode.between_of_head? (by simp) .code before).trans (congrArg _ h))
  have hp : SwapsPending x y 1 (x.quoted.reverse ++ pending) (y.quoted.reverse ++ pending) := by
    rw [x.reverse_quoted, y.reverse_quoted]
    exact .swap (.refl pending)
  rw [hunits, hunits]
  simpa using (SwapsUnits.refl us).append (swapsUnits_unitsFrom hp .code line after)

end Script

end FormulaScript
