import FormulaScript.Proofs.Script.Joining
import FormulaScript.Proofs.Script.Marks

/-!
# A semicolon after a script

A semicolon after a script changes nothing in it. It falls into a comment that the script ends in,
or it is an empty statement of its own: the last unit of a script without faults is complete, so
there is none that it could be added to.
-/

namespace FormulaScript.Script

open Text

/-! ## The end of a text -/

/-- Where the reading of a text ends: after some units, in a mode, with a unit that is begun on a
line. Anything but the second character of a comment is read from there on. If the reading ends in a
string, the unit ends with what the text has from its last quote on. -/
structure Ending (mode : Mode) (pending : List Char) (line : Nat) (text : List Char)
    (us : List SourceUnit) (last : Mode) (pending' : List Char) (line' : Nat) : Prop where
  final : mode.after text = last
  lines : line + text.count '\n' = line'
  units : unitsFrom mode pending line text = us ++ flush line' pending'
  append : ∀ c more, c ≠ '/' → c ≠ '*' → unitsFrom mode pending line (text ++ c :: more) =
    us ++ unitsFrom last pending' line' (c :: more)
  begun : Begun mode pending → Begun last pending'
  string : last = .string → mode = .string ∧ pending' = text.reverse ++ pending ∨
    ∃ start rest before, text = start ++ '"' :: rest ∧ pending' = rest.reverse ++ '"' :: before

variable {mode mode' last : Mode} {pending pending' pending'' : List Char} {line line' line'' : Nat}
  {text rest : List Char} {us : List SourceUnit}

/-- Reading some characters in front of a text, which end neither in a string nor in a quote. -/
theorem Ending.step (h : Ending mode' pending' line' rest us last pending'' line'')
    (word : List Char) (vs : List SourceUnit) (hm : mode' ≠ .string)
    (hmode : mode.after (word ++ rest) = mode'.after rest) (hl : line + word.count '\n' = line')
    (hu : unitsFrom mode pending line (word ++ rest) = vs ++ unitsFrom mode' pending' line' rest)
    (ha : ∀ c more, c ≠ '/' → c ≠ '*' → unitsFrom mode pending line (word ++ (rest ++ c :: more)) =
      vs ++ unitsFrom mode' pending' line' (rest ++ c :: more))
    (hb : Begun mode pending → Begun mode' pending') :
    Ending mode pending line (word ++ rest) (vs ++ us) last pending'' line'' where
  final := hmode.trans h.final
  lines := by rw [List.count_append, ← Nat.add_assoc, hl, h.lines]
  units := by rw [hu, h.units, List.append_assoc]
  append c more hc hc' := by
    rw [List.append_assoc, ha c more hc hc', h.append c more hc hc', List.append_assoc]
  begun := h.begun ∘ hb
  string hl := by
    obtain ⟨hs, -⟩ | ⟨start, rest, before, ht, hp⟩ := h.string hl
    · exact absurd hs hm
    · exact .inr ⟨word ++ start, rest, before, by rw [ht, List.append_assoc], hp⟩

theorem count_ne_newline (hc : c ≠ '\n') (line : Nat) : line + [c].count '\n' = line :=
  congrArg (line + ·) (List.count_cons_of_ne hc)

/-- The head of a text that goes on with a character is the head of the text or the character. -/
theorem head?_ne_of_append {d : Char} (h : ∀ tail, rest ≠ d :: tail) (hc : c ≠ d)
    (more : List Char) : ∀ e ∈ (rest ++ c :: more).head?, e ≠ d := by
  cases rest with
  | nil =>
    rintro _ ⟨⟩
    exact hc
  | cons e rest =>
    rintro _ ⟨⟩ rfl
    exact h rest rfl

theorem head?_ne {d : Char} (h : ∀ tail, rest ≠ d :: tail) : ∀ e ∈ rest.head?, e ≠ d := by
  cases rest with
  | nil => nofun
  | cons e rest =>
    rintro _ ⟨⟩ rfl
    exact h rest rfl

/-- The reading of every text ends somewhere; the induction is on the reading. -/
theorem exists_ending (mode : Mode) (pending : List Char) (line : Nat) (text : List Char) :
    ∃ us last pending' line', Ending mode pending line text us last pending' line' := by
  fun_induction unitsFrom mode pending line text with
  | case1 mode pending line =>
    exact ⟨[], mode, pending, line, by rw [Mode.after], rfl, by rw [unitsFrom]; rfl,
      fun _ _ _ _ => rfl, id, fun hl => .inl ⟨hl, rfl⟩⟩
  | case2 mode pending line rest ih =>
    obtain ⟨us, last, pending', line', h⟩ := ih
    exact ⟨_, _, _, _, h.step ['\n'] (flush line pending) (nextLine_ne_string mode)
      (Mode.after.eq_2 ..) rfl (unitsFrom_newline mode) (fun _ _ _ _ => unitsFrom_newline mode)
      fun _ => begun_nil (nextLine_ne_string mode)⟩
  | case3 pending line rest ih =>
    obtain ⟨us, last, pending', line', h⟩ := ih
    refine ⟨_, _, _, _, h.step ['*', '/'] [] (by simp) (Mode.after.eq_3 ..) rfl ?_ ?_
      fun hb => hb.skip (by simp) (by simp)⟩
    · exact unitsFrom.eq_3 ..
    · exact fun _ _ _ _ => unitsFrom.eq_3 ..
  | case4 pending line c rest hn hs ih =>
    obtain ⟨us, last, pending', line', h⟩ := ih
    refine ⟨_, _, _, _,
      h.step [c] [] (by simp) (Mode.after.eq_4 _ _ hn hs) (count_ne_newline hn line)
      (unitsFrom.eq_4 _ _ _ _ hn hs) ?_ id⟩
    intro d more hd _
    exact unitsFrom_comment hn fun hc => head?_ne_of_append (fun tail ht => hs tail hc ht) hd more
  | case5 pending line c rest hn ih =>
    obtain ⟨us, last, pending', line', h⟩ := ih
    exact ⟨_, _, _, _, h.step [c] [] (by simp) (Mode.after.eq_5 _ _ hn) (count_ne_newline hn line)
      (unitsFrom_lineComment hn) (fun _ _ _ _ => unitsFrom_lineComment hn) id⟩
  | case6 pending line c rest hn ih =>
    obtain ⟨us, last, pending', line', hm, hc, hu, ha, hb, hs⟩ := ih
    have hstep (rest : List Char) : unitsFrom .string pending line (c :: rest) =
        unitsFrom (if c = '"' then .code else .string) (c :: pending) line rest :=
      unitsFrom.eq_6 _ _ _ _ hn
    refine ⟨us, last, pending', line', (Mode.after.eq_6 _ _ hn).trans hm, ?_,
      (hstep rest).trans hu, fun d more hd hd' => (hstep _).trans (ha d more hd hd'),
      fun h => hb (h.char c), fun hl => ?_⟩
    · rw [List.count_cons_of_ne hn, hc]
    rcases hs hl with ⟨hm, rfl⟩ | ⟨start, more, before, ht, hp⟩
    · exact .inl ⟨rfl, by simp⟩
    · exact .inr ⟨c :: start, more, before, congrArg _ ht, hp⟩
  | case7 pending line rest ih =>
    obtain ⟨us, last, pending', line', hm, hc, hu, ha, hb, hs⟩ := ih
    have hstep (rest : List Char) : unitsFrom .code pending line ('"' :: rest) =
        unitsFrom .string ('"' :: pending) line rest := unitsFrom.eq_7 ..
    refine ⟨us, last, pending', line', (Mode.after.eq_7 ..).trans hm, ?_, (hstep rest).trans hu,
      fun d more hd hd' => (hstep _).trans (ha d more hd hd'), fun h => hb h.quote, fun hl => ?_⟩
    · rw [List.count_cons_of_ne (by decide), hc]
    rcases hs hl with ⟨-, hp⟩ | ⟨start, more, before, ht, hp⟩
    · exact .inr ⟨[], rest, pending, rfl, hp⟩
    · exact .inr ⟨'"' :: start, more, before, congrArg _ ht, hp⟩
  | case8 pending line rest ih =>
    obtain ⟨us, last, pending', line', h⟩ := ih
    exact ⟨_, _, _, _, h.step ['/', '*'] [] (by simp) (Mode.after.eq_8 ..) rfl (unitsFrom.eq_8 ..)
      (fun _ _ _ _ => unitsFrom.eq_8 ..) fun hb => hb.skip (by simp) (by simp)⟩
  | case9 pending line rest ih =>
    obtain ⟨us, last, pending', line', h⟩ := ih
    exact ⟨_, _, _, _, h.step ['/', '/'] [] (by simp) (Mode.after.eq_9 ..) rfl (unitsFrom.eq_9 ..)
      (fun _ _ _ _ => unitsFrom.eq_9 ..) fun hb => hb.skip (by simp) (by simp)⟩
  | case10 pending line rest ih =>
    obtain ⟨us, last, pending', line', h⟩ := ih
    exact ⟨_, _, _, _, h.step ['#'] [] (by simp) (Mode.after.eq_10 ..) rfl (unitsFrom.eq_10 ..)
      (fun _ _ _ _ => unitsFrom.eq_10 ..) fun hb => hb.skip (by simp) (by simp)⟩
  | case11 pending line c rest hn hq hb hl hh hc ih =>
    obtain ⟨us, last, pending', line', h⟩ := ih
    have hstep (rest : List Char) : unitsFrom .code pending line (c :: rest) =
        flush line pending ++ [⟨line, [c]⟩] ++ unitsFrom .code [] line rest := by
      rw [List.append_assoc]
      rcases (by simpa using hc : c = '{' ∨ c = '}') with rfl | rfl
      · exact unitsFrom_opening
      · exact unitsFrom_closing
    exact ⟨_, _, _, _,
      h.step [c] _ (by simp) (Mode.after.eq_11 _ _ hn hq hb hl hh) (count_ne_newline hn line)
      (hstep rest) (fun _ _ _ _ => hstep _) fun _ => begun_nil (by simp)⟩
  | case12 pending line rest hn hq hb hl hh hc ih =>
    obtain ⟨us, last, pending', line', h⟩ := ih
    exact ⟨_, _, _, _, h.step [';'] _ (by simp) (Mode.after.eq_11 _ _ hn hq hb hl hh) rfl
      unitsFrom_semicolon (fun _ _ _ _ => unitsFrom_semicolon) fun _ => begun_nil (by simp)⟩
  | case13 pending line c rest hn hq hb hl hh hc hs ih =>
    obtain ⟨us, last, pending', line', h⟩ := ih
    have hmark : c ∉ marks := by
      simp only [marks, List.mem_cons, List.not_mem_nil, or_false]
      simp_all
    have hstructural : c ∉ structural := by
      simp only [structural, List.mem_cons, List.not_mem_nil, or_false]
      simp_all
    refine ⟨_, _, _, _,
      h.step [c] [] (by simp) (Mode.after.eq_11 _ _ hn hq hb hl hh) (count_ne_newline hn line)
      (unitsFrom_cons hstructural ?_) ?_ fun hb => hb.push hq hmark⟩
    · exact fun hc e he =>
        ⟨head?_ne (fun tail ht => hl tail hc ht) e he, head?_ne (fun tail ht => hb tail hc ht) e he⟩
    · intro d more hd hd'
      exact unitsFrom_cons hstructural fun hc e he =>
        ⟨head?_ne_of_append (fun tail ht => hl tail hc ht) hd more e he,
          head?_ne_of_append (fun tail ht => hb tail hc ht) hd' more e he⟩

/-- What follows a line is read on the next one, as if nothing came before it unless a comment goes
on. -/
theorem units_append_newline {script : List Char} (h : Mode.code.after script ≠ .blockComment)
    (rest : List Char) : units (script ++ '\n' :: rest) =
      units script ++ unitsFrom .code [] (1 + script.count '\n' + 1) rest := by
  obtain ⟨us, last, pending, line, he⟩ := exists_ending .code [] 1 script
  have hu : units script = us ++ flush line pending := he.units
  have hu' : units (script ++ '\n' :: rest) = us ++ unitsFrom last pending line ('\n' :: rest) :=
    he.append '\n' rest (by decide) (by decide)
  have hnext : last.nextLine = .code := by
    rw [he.final] at h
    cases last with
    | blockComment => exact absurd rfl h
    | code | string | lineComment => rfl
  rw [hu, hu', unitsFrom_newline, hnext, he.lines, List.append_assoc]

/-! ## The semicolon -/

theorem blank_of_flush (h : flush line pending = []) : ∀ c ∈ pending, isBlank c := by
  have ht : trim pending.reverse = [] := by simpa [flush] using h
  obtain ⟨before, after, hb, ha, hp⟩ := exists_trim pending.reverse
  rw [ht] at hp
  intro c hc
  rw [← List.mem_reverse, hp] at hc
  rcases List.mem_append.1 hc with hc | hc
  · exact hb c (by simpa using hc)
  · exact ha c hc

/-- A semicolon is in a comment or a unit of its own where no unit is begun. -/
theorem unitsFrom_of_flush (h : flush line pending = []) (mode : Mode) :
    unitsFrom mode pending line [';'] = [] ∨
      unitsFrom mode pending line [';'] = [⟨line, [';']⟩] := by
  have hblank : isBlank ';' = false := by decide
  have hsemicolon := flush_cons (blank_of_flush h) hblank line []
  cases mode with
  | code =>
    refine .inr (unitsFrom_semicolon.trans ?_)
    rw [unitsFrom]
    exact (List.append_nil _).trans hsemicolon
  | string =>
    refine .inr (Eq.trans ?_ hsemicolon)
    rw [unitsFrom.eq_6 _ _ _ _ (by decide), unitsFrom]
    rfl
  | lineComment =>
    rw [unitsFrom_lineComment (by decide), unitsFrom]
    exact .inl h
  | blockComment =>
    rw [unitsFrom_comment (by decide) fun hc => absurd hc (by decide), unitsFrom]
    exact .inl h

theorem follows_semicolon (line : Nat) : Follows [⟨line, [';']⟩] := by
  have h : [';'] ≠ closingBrace ∧ [';'] ≠ "else".toList ∧ afterElseIf [';'] = none := by decide
  rintro _ ⟨⟩
  exact h

/-- A semicolon on its own is no statement. -/
theorem draft_semicolon (topLevel : Bool) (line line' : Nat) :
    draft topLevel line [] [⟨line', [';']⟩] = .done := by
  have hi : afterKeyword "if" [';'] = none := by decide
  have hw : afterKeyword "while" [';'] = none := by decide
  have hc : [';'] ≠ closingBrace := by decide
  rw [draft_cons, if_neg hc, hi, hw]
  exact draft_nil topLevel line'

theorem getLast?_trimRight (hc : isBlank c = false) (start rest : List Char) :
    (trimRight (start ++ c :: rest)).getLast? = (c :: trimRight rest).getLast? := by
  rw [trimRight_append_of_ne (by simp [trimRight_cons hc]), trimRight_cons hc,
    List.getLast?_append_cons]

/-- A unit that is begun where a script ends is complete only in a string, of which the script then
has the end. -/
theorem Ending.getLast?_of_completes {unit : SourceUnit}
    (h : Ending .code [] 1 text us last pending line) (hu : unit ∈ flush line pending)
    (hc : unit.Completes) : ∃ c ∈ [';', '}'], (trimRight text).getLast? = some c := by
  obtain ⟨left, right, hl, hr, he⟩ := exists_of_mem_flush hu
  obtain ⟨c, hm, hlast⟩ : ∃ c ∈ [';', '}'], unit.text.getLast? = some c := by
    rcases hc with ht | ht
    · exact ⟨'}', by simp, ht ▸ rfl⟩
    · exact ⟨';', by simp, ht⟩
  obtain ⟨hmark, hblank, hquote⟩ : c ∈ marks ∧ isBlank c = false ∧ c ≠ '"' := by
    rcases (by simpa using hm : c = ';' ∨ c = '}') with rfl | rfl <;> decide
  obtain ⟨front, ht⟩ := List.getLast?_eq_some_iff.1 hlast
  rw [ht] at he
  have hb := h.begun (begun_nil nofun)
  have hfront : EndsInString front :=
    endsInString_of_reverse right hb.unmarked hmark hl (by simp [he])
  have hpending : EndsInString pending := by
    rw [← endsInString_reverse, he]
    simpa [EndsInString, count_of_blank hl, count_of_blank hr, hquote] using hfront
  obtain ⟨hn, -⟩ | ⟨start, rest, before, rfl, hp⟩ := h.string (hb.string.2 hpending)
  · cases hn
  · have hlast' : (trimRight pending.reverse).getLast? = some c := by
      rw [he, trimRight_append_of_blank hr, ← List.append_assoc, trimRight_append hblank]
      exact List.getLast?_concat
    rw [hp, List.reverse_append, List.reverse_reverse, List.reverse_cons, List.append_assoc,
      List.singleton_append, getLast?_trimRight (by decide)] at hlast'
    exact ⟨c, hm, (getLast?_trimRight (by decide) start rest).trans hlast'⟩

/-- A semicolon after a script without faults changes nothing, unless the script ends with a
semicolon or a closing brace already. -/
theorem ofScript_append_semicolon {p : List Char → Prop}
    (hw : (Draft.ofScript text).Whole p)
    (hlast : ∀ c ∈ [';', '}'], (trimRight text).getLast? ≠ some c) :
    Draft.ofScript (text ++ [';']) = Draft.ofScript text := by
  obtain ⟨us, last, pending, line, h⟩ := exists_ending .code [] 1 text
  have hu : units text = us ++ flush line pending := h.units
  have hu' : units (text ++ [';']) = us ++ unitsFrom last pending line [';'] :=
    h.append ';' [] (by decide) (by decide)
  have hopen : flush line pending = [] := by
    by_contra hne
    have hc := (drafted_of_ends hw.ends).completes ((flush line pending).getLast hne)
      (by rw [hu, List.getLast?_append_of_ne_nil _ hne]; exact List.getLast_mem_getLast? hne)
    obtain ⟨c, hm, hl⟩ := h.getLast?_of_completes (List.getLast_mem hne) hc
    exact hlast c hm hl
  rw [hopen, List.append_nil] at hu
  unfold Draft.ofScript at hw ⊢
  rw [hu']
  rw [hu] at hw ⊢
  rcases unitsFrom_of_flush hopen last with ha | ha
  · rw [ha, List.append_nil]
  · rw [ha]
    have hd := drafted_of_ends hw.ends
    rw [hd.draft_append (fun _ => follows_semicolon line) true 1 1, draft_semicolon,
      Draft.append_done]

end FormulaScript.Script
