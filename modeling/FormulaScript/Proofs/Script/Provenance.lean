import FormulaScript.Proofs.Script.Sequence

/-!
# Where units come from

The units of a script hold what stands outside its comments, but for blanks, in the order and on
the lines where it stands. A brace outside strings is a unit of its own, and no other unit is a
brace. Both are read off from one equation between the characters of the units and those of the
script, each with its line and with whether it is such a brace.
-/

namespace FormulaScript.Script

open Text

/-! ## The text outside comments -/

/-- A character of a script outside its comments: the line that it stands on, and whether it is in
a string. -/
structure Place where
  line : Nat
  char : Char
  quoted : Bool
deriving DecidableEq, Repr

/-- The characters outside comments of a text that starts in a mode and on a line. -/
def placesFrom : Mode → Nat → List Char → List Place
  | _, _, [] => []
  | .blockComment, line, '\n' :: rest => placesFrom .blockComment (line + 1) rest
  | _, line, '\n' :: rest => ⟨line, '\n', false⟩ :: placesFrom .code (line + 1) rest
  | .blockComment, line, '*' :: '/' :: rest => placesFrom .code line rest
  | .blockComment, line, _ :: rest => placesFrom .blockComment line rest
  | .lineComment, line, _ :: rest => placesFrom .lineComment line rest
  | .string, line, c :: rest =>
    ⟨line, c, true⟩ :: placesFrom (if c = '"' then .code else .string) line rest
  | .code, line, '"' :: rest => ⟨line, '"', true⟩ :: placesFrom .string line rest
  | .code, line, '/' :: '*' :: rest => placesFrom .blockComment line rest
  | .code, line, '/' :: '/' :: rest => placesFrom .lineComment line rest
  | .code, line, '#' :: rest => placesFrom .lineComment line rest
  | .code, line, c :: rest => ⟨line, c, false⟩ :: placesFrom .code line rest

/-- The characters of a script outside its comments. -/
def places (script : List Char) : List Place := placesFrom .code 1 script

/-- The character is a brace that structures the script. -/
def Place.isBrace (place : Place) : Bool :=
  !place.quoted && (place.char = '{' || place.char = '}')

/-- The unit is a brace. -/
def SourceUnit.isBrace (unit : SourceUnit) : Bool :=
  unit.text = openingBrace || unit.text = closingBrace

/-- A character other than a blank, its line, and whether it is a brace that structures the
script. -/
structure Sign where
  line : Nat
  char : Char
  isBrace : Bool
deriving DecidableEq, Repr

def Place.sign (place : Place) : Sign := ⟨place.line, place.char, place.isBrace⟩

/-- The characters of a unit, which are taken to stand on its line. -/
def SourceUnit.signs (unit : SourceUnit) : List Sign :=
  (unit.text.filter (!isBlank ·)).map (⟨unit.line, ·, unit.isBrace⟩)

/-- The characters outside comments that are no blanks. -/
def signs (places : List Place) : List Sign :=
  (places.filter (!isBlank ·.char)).map Place.sign

variable {pending text rest : List Char} {line : Nat} {c : Char} {inString : Bool}

theorem signs_cons (place : Place) (places : List Place) :
    signs (place :: places) = signs [place] ++ signs places := by
  rw [signs, signs, signs, ← List.singleton_append, List.filter_append, List.map_append]

theorem signs_blank {place : Place} (h : isBlank place.char) (places : List Place) :
    signs (place :: places) = signs places := by
  rw [signs, List.filter_cons_of_neg (by simp [h]), signs]

/-- What the characters of a unit that is begun are. -/
def begunSigns (line : Nat) (text : List Char) : List Sign :=
  (text.filter (!isBlank ·)).map (⟨line, ·, false⟩)

theorem begunSigns_append (line : Nat) (text rest : List Char) :
    begunSigns line (text ++ rest) = begunSigns line text ++ begunSigns line rest := by
  rw [begunSigns, begunSigns, begunSigns, List.filter_append, List.map_append]

theorem begunSigns_blank (h : ∀ c ∈ text, isBlank c) (line : Nat) : begunSigns line text = [] := by
  rw [begunSigns, List.filter_eq_nil_iff.2 fun c hc => by simp [h c hc]]
  rfl

theorem begunSigns_singleton (h : inString ∨ c ≠ '{' ∧ c ≠ '}') (line : Nat) :
    begunSigns line [c] = signs [⟨line, c, inString⟩] := by
  have hb : Place.isBrace ⟨line, c, inString⟩ = false := by
    rcases h with rfl | ⟨ho, hc⟩
    · rfl
    · simp [Place.isBrace, ho, hc]
  cases hc : isBlank c <;> simp [begunSigns, signs, Place.sign, hb, hc]

theorem begunSigns_trim (line : Nat) (text : List Char) :
    begunSigns line (trim text) = begunSigns line text := by
  obtain ⟨before, after, hb, ha, ht⟩ := exists_trim text
  conv_rhs => rw [ht]
  rw [begunSigns_append, begunSigns_append, begunSigns_blank hb, begunSigns_blank ha,
    List.nil_append, List.append_nil]

/-! ## Units that are begun -/

theorem flatMap_flush (h : ∀ unit ∈ flush line pending, unit.isBrace = false) :
    (flush line pending).flatMap SourceUnit.signs = begunSigns line pending.reverse := by
  rw [← begunSigns_trim]
  unfold flush at h ⊢
  dsimp only at h ⊢
  split
  · next he => rw [List.isEmpty_iff.1 he]; rfl
  · next he =>
    rw [if_neg he, List.forall_mem_singleton] at h
    rw [List.flatMap_singleton, SourceUnit.signs, h]
    rfl

theorem isBrace_iff {unit : SourceUnit} :
    unit.isBrace ↔ unit.text = openingBrace ∨ unit.text = closingBrace := by
  simp [SourceUnit.isBrace]

theorem isBrace_eq_false_iff {unit : SourceUnit} :
    unit.isBrace = false ↔ unit.text ≠ openingBrace ∧ unit.text ≠ closingBrace := by
  simp [SourceUnit.isBrace]

/-- A unit whose braces are in strings is none. -/
theorem Unmarked.not_isBrace (h : Unmarked pending) :
    ∀ unit ∈ Script.flush line pending, unit.isBrace = false := by
  intro unit hu
  obtain ⟨left, right, hl, -, he⟩ := exists_of_mem_flush hu
  have hne (c : Char) (hc : c ∈ marks) : unit.text ≠ [c] := by
    intro ht
    rw [ht, List.append_assoc] at he
    have hs : EndsInString [] := endsInString_of_reverse right h hc hl (by simpa using he)
    exact absurd hs (by decide)
  exact isBrace_eq_false_iff.2 ⟨hne '{' (by decide), hne '}' (by decide)⟩

/-- A unit that ends with a semicolon is none. -/
theorem not_isBrace_semicolon (pending : List Char) :
    ∀ unit ∈ flush line (';' :: pending), unit.isBrace = false := by
  intro unit hu
  rw [flush_semicolon, List.mem_singleton] at hu
  subst hu
  have hne (c : Char) (hc : c ≠ ';') : trimLeft pending.reverse ++ [';'] ≠ [c] := by
    intro he
    have hl := congrArg List.getLast? he
    rw [List.getLast?_concat] at hl
    cases hl
    exact hc rfl
  exact isBrace_eq_false_iff.2 ⟨hne '{' (by decide), hne '}' (by decide)⟩

theorem begunSigns_push (ho : c ≠ '{') (hc : c ≠ '}') (line : Nat) (pending : List Char) :
    begunSigns line (push pending c).reverse =
      begunSigns line pending.reverse ++ signs [⟨line, c, false⟩] := by
  rw [← begunSigns_singleton (.inr ⟨ho, hc⟩), ← begunSigns_append, ← List.reverse_cons]
  cases hb : isBlank c with
  | true =>
    obtain ⟨blanks, hblanks, hp⟩ := exists_push pending hb
    have hnone : begunSigns line blanks.reverse = [] :=
      begunSigns_blank (by simpa using hblanks) line
    have hone : begunSigns line [c] = [] := begunSigns_blank (by simpa using hb) line
    rw [hp, List.reverse_append, List.reverse_cons, begunSigns_append, begunSigns_append, hnone,
      hone]
  | false => rw [push_of_not_blank hb]

theorem signs_newline (mode : Mode) (line : Nat) (rest : List Char) :
    signs (placesFrom mode line ('\n' :: rest)) =
      signs (placesFrom mode.nextLine (line + 1) rest) := by
  cases mode with
  | blockComment => rw [placesFrom, Mode.nextLine]
  | code | string | lineComment =>
    rw [placesFrom, signs_blank (by simp; decide)]
    · rfl
    · simp

/-- The induction is on the reading; what is kept is what holds of the unit that is begun. -/
theorem flatMap_unitsFrom (mode : Mode) (pending : List Char) (line : Nat) (text : List Char)
    (h : Begun mode pending) : (unitsFrom mode pending line text).flatMap SourceUnit.signs =
      begunSigns line pending.reverse ++ signs (placesFrom mode line text) := by
  fun_induction unitsFrom mode pending line text with
  | case1 mode pending line =>
    rw [flatMap_flush h.unmarked.not_isBrace, placesFrom]
    exact (List.append_nil _).symm
  | case2 mode pending line rest ih =>
    rw [List.flatMap_append, flatMap_flush h.unmarked.not_isBrace,
      ih (begun_nil (nextLine_ne_string mode)), signs_newline]
    rfl
  | case3 pending line rest ih | case8 pending line rest ih | case9 pending line rest ih
  | case10 pending line rest ih =>
    rw [ih (h.skip (by simp) (by simp)), placesFrom]
  | case4 pending line c rest hn hs ih =>
    rw [ih h, placesFrom]
    · exact hn
    · exact hs
  | case5 pending line c rest hn ih =>
    rw [ih h, placesFrom]
    exact hn
  | case6 pending line c rest hn ih =>
    rw [ih (h.char c), placesFrom, signs_cons, List.reverse_cons, begunSigns_append,
      List.append_assoc, begunSigns_singleton (.inl rfl)]
    exact hn
  | case7 pending line rest ih =>
    rw [ih h.quote, placesFrom, signs_cons, List.reverse_cons, begunSigns_append,
      List.append_assoc, begunSigns_singleton (.inl rfl)]
  | case11 pending line c rest hn hq hb hl hh hc ih =>
    have hsign : SourceUnit.signs ⟨line, [c]⟩ = signs [⟨line, c, false⟩] := by
      have hc : c = '{' ∨ c = '}' := by simpa using hc
      rcases hc with rfl | rfl <;> rfl
    rw [List.flatMap_append, List.flatMap_cons, flatMap_flush h.unmarked.not_isBrace, hsign,
      ih (begun_nil (by simp)), placesFrom, signs_cons ⟨line, c, false⟩ (placesFrom ..)]
    · rfl
    all_goals assumption
  | case12 pending line rest hn hq hb hl hh hc ih =>
    rw [List.flatMap_append, flatMap_flush (not_isBrace_semicolon pending),
      ih (begun_nil (by simp)), placesFrom, signs_cons, List.reverse_cons, begunSigns_append,
      begunSigns_singleton (.inr (by decide)), List.append_assoc]
    · rfl
    all_goals assumption
  | case13 pending line c rest hn hq hb hl hh hc hs ih =>
    have hbrace : c ≠ '{' ∧ c ≠ '}' := by simpa using hc
    have hmark : c ∉ marks := by simp [marks, hbrace, hs]
    rw [ih (h.push hq hmark), placesFrom, signs_cons, begunSigns_push hbrace.1 hbrace.2,
      List.append_assoc]
    all_goals assumption

/-! ## Lines -/

/-- The characters stand on lines in order, from one line to another. -/
structure Lined (line last : Nat) (places : List Place) : Prop where
  sorted : places.Pairwise (·.line ≤ ·.line)
  bounds : ∀ place ∈ places, line ≤ place.line ∧ place.line ≤ last

variable {last : Nat} {ps : List Place}

theorem Lined.cons (h : Lined line last ps) (hl : line ≤ last) (c : Char) (inString : Bool) :
    Lined line last (⟨line, c, inString⟩ :: ps) where
  sorted := List.pairwise_cons.2 ⟨fun place hp => (h.bounds place hp).1, h.sorted⟩
  bounds := List.forall_mem_cons.2 ⟨⟨Nat.le_refl line, hl⟩, h.bounds⟩

theorem Lined.mono (h : Lined (line + 1) last ps) : Lined line last ps where
  sorted := h.sorted
  bounds place hp := (h.bounds place hp).imp_left Nat.le_of_succ_le

/-- The induction is on the text; every line feed is counted, in a comment or not. -/
theorem lined_placesFrom (mode : Mode) (line : Nat) (text : List Char)
    (h : line + text.count '\n' ≤ last) : Lined line last (placesFrom mode line text) := by
  fun_induction placesFrom mode line text with
  | case1 => exact ⟨.nil, List.forall_mem_nil _⟩
  | case2 line rest ih =>
    rw [List.count_cons_self] at h
    exact (ih (by omega)).mono
  | case3 mode line rest hm ih =>
    rw [List.count_cons_self] at h
    exact (ih (by omega)).mono.cons (by omega) '\n' false
  | case4 line rest ih | case9 line rest ih | case10 line rest ih =>
    rw [List.count_cons, List.count_cons] at h
    exact ih (by omega)
  | case5 line c rest hn hs ih | case6 line c rest hn ih | case11 line rest ih =>
    rw [List.count_cons] at h
    exact ih (by omega)
  | case7 line c rest hn ih =>
    rw [List.count_cons] at h
    exact (ih (by omega)).cons (by omega) c true
  | case8 line rest ih =>
    rw [List.count_cons] at h
    exact (ih (by omega)).cons (by omega) '"' true
  | case12 line c rest hn hq hb hl hh ih =>
    rw [List.count_cons] at h
    exact (ih (by omega)).cons (by omega) c false

/-! ## Scripts -/

theorem flatMap_units (script : List Char) :
    (units script).flatMap SourceUnit.signs = signs (places script) :=
  flatMap_unitsFrom .code [] 1 script (begun_nil nofun)

/-- Units are trimmed texts that are not empty. -/
theorem trim_of_mem_units (mode : Mode) (pending : List Char) (line : Nat) (text : List Char) :
    ∀ unit ∈ unitsFrom mode pending line text, unit.text ≠ [] ∧ trim unit.text = unit.text := by
  fun_induction unitsFrom mode pending line text with
  | case1 mode pending line => exact fun _ => trim_of_mem_flush
  | case2 mode pending line rest ih =>
    exact List.forall_mem_append.2 ⟨fun _ => trim_of_mem_flush, ih⟩
  | case11 pending line c rest hn hq hb hl hh hc ih =>
    refine List.forall_mem_append.2 ⟨fun _ => trim_of_mem_flush, List.forall_mem_cons.2 ⟨?_, ih⟩⟩
    have hc : c = '{' ∨ c = '}' := by simpa using hc
    refine ⟨List.cons_ne_nil c [], ?_⟩
    rcases hc with rfl | rfl <;> rfl
  | case12 pending line rest hn hq hb hl hh hc ih =>
    exact List.forall_mem_append.2 ⟨fun _ => trim_of_mem_flush, ih⟩
  | case3 _ _ _ ih | case4 _ _ _ _ _ _ ih | case5 _ _ _ _ _ ih | case6 _ _ _ _ _ ih
  | case7 _ _ _ ih | case8 _ _ _ ih | case9 _ _ _ ih | case10 _ _ _ ih
  | case13 _ _ _ _ _ _ _ _ _ _ _ ih => exact ih

/-- A trimmed text starts with a character that is no blank, so a unit has a sign. -/
theorem exists_sign {unit : SourceUnit} (h : unit.text ≠ [] ∧ trim unit.text = unit.text) :
    ∃ sign ∈ unit.signs, sign.line = unit.line := by
  obtain ⟨c, rest, ht⟩ := List.exists_cons_of_ne_nil h.1
  have hl : trimLeft unit.text = unit.text := by rw [← h.2, trimLeft_trim]
  have hb : isBlank c = false := isBlank_of_head? hl c (by rw [ht]; rfl)
  have hc : c ∈ unit.text.filter (!isBlank ·) :=
    List.mem_filter.2 ⟨ht ▸ List.mem_cons_self, by simp [hb]⟩
  exact ⟨⟨unit.line, c, unit.isBrace⟩, List.mem_map.2 ⟨c, hc, rfl⟩, rfl⟩

/-- The braces among units, as they are among the signs. -/
theorem braces_of_units (us : List SourceUnit) :
    (us.filter SourceUnit.isBrace).map (fun unit => (unit.line, unit.text)) =
      ((us.flatMap SourceUnit.signs).filter Sign.isBrace).map
        fun sign => (sign.line, [sign.char]) := by
  induction us with
  | nil => rfl
  | cons unit us ih =>
    rw [List.flatMap_cons, List.filter_append, List.map_append, ← ih]
    cases hb : unit.isBrace with
    | true =>
      have hone : unit.signs.filter Sign.isBrace = unit.signs :=
        List.filter_eq_self.2 fun sign hs => by
          obtain ⟨c, -, rfl⟩ := List.mem_map.1 hs
          exact hb
      have hsigns : unit.signs.map (fun sign => (sign.line, [sign.char])) =
          [(unit.line, unit.text)] := by
        rcases isBrace_iff.1 hb with ht | ht <;> rw [SourceUnit.signs, ht] <;> rfl
      rw [List.filter_cons_of_pos hb, List.map_cons, hone, hsigns, List.singleton_append]
    | false =>
      have hnone : unit.signs.filter Sign.isBrace = [] :=
        List.filter_eq_nil_iff.2 fun sign hs => by
          obtain ⟨c, -, rfl⟩ := List.mem_map.1 hs
          simp [hb]
      rw [List.filter_cons_of_neg (by simp [hb]), hnone, List.map_nil, List.nil_append]

theorem braces_of_places (ps : List Place) :
    (ps.filter Place.isBrace).map (fun place => (place.line, [place.char])) =
      ((signs ps).filter Sign.isBrace).map fun sign => (sign.line, [sign.char]) := by
  have hbrace (place : Place) (h : place.isBrace) : isBlank place.char = false := by
    have hc : place.char = '{' ∨ place.char = '}' := by
      simp only [Place.isBrace, Bool.and_eq_true, Bool.or_eq_true, decide_eq_true_eq] at h
      exact h.2
    rcases hc with hc | hc <;> rw [hc] <;> rfl
  have hf : ps.filter Place.isBrace =
      (ps.filter (!isBlank ·.char)).filter (Sign.isBrace ∘ Place.sign) := by
    rw [List.filter_filter]
    refine List.filter_congr fun place _ => ?_
    cases hb : place.isBrace <;> simp [Place.sign, hb, hbrace]
  rw [hf, signs, List.filter_map, List.map_map]
  rfl

theorem characters_of_units (us : List SourceUnit) :
    (us.flatMap (·.text)).filter (!isBlank ·) = (us.flatMap SourceUnit.signs).map Sign.char := by
  rw [List.filter_flatMap, List.map_flatMap]
  refine List.flatMap_congr fun unit _ => ?_
  rw [SourceUnit.signs, List.map_map]
  exact (List.map_id _).symm

theorem characters_of_places (ps : List Place) :
    (ps.map Place.char).filter (!isBlank ·) = (signs ps).map Sign.char := by
  rw [signs, List.map_map, List.filter_map]
  rfl

/-- The units of a script are trimmed and in order, and lose nothing but comments and blanks: their
characters are those outside comments, each on the line of its unit, and their braces are those
outside comments and strings. -/
theorem units_provenance (script : List Char) :
    (∀ unit ∈ units script, unit.text ≠ [] ∧ trim unit.text = unit.text) ∧
      (units script).Pairwise (·.line ≤ ·.line) ∧
      (∀ unit ∈ units script, 1 ≤ unit.line ∧ unit.line ≤ lineCount script) ∧
      (units script).flatMap SourceUnit.signs = signs (places script) ∧
      ((units script).filter SourceUnit.isBrace).map (fun unit => (unit.line, unit.text)) =
        ((places script).filter Place.isBrace).map (fun place => (place.line, [place.char])) ∧
      ((units script).flatMap (·.text)).filter (!isBlank ·) =
        ((places script).map Place.char).filter (!isBlank ·) := by
  have htrim := trim_of_mem_units .code [] 1 script
  have hsigns := flatMap_units script
  have hlined : Lined 1 (lineCount script) (places script) :=
    lined_placesFrom .code 1 script (Nat.le_of_eq (Nat.add_comm 1 _))
  refine ⟨htrim, ?_, ?_, hsigns, ?_, ?_⟩
  · have hsorted : (signs (places script)).Pairwise (·.line ≤ ·.line) :=
      List.pairwise_map.2 (hlined.sorted.filter _)
    rw [← hsigns] at hsorted
    refine (List.pairwise_flatMap.1 hsorted).2.imp_of_mem fun {u v} hu hv h => ?_
    obtain ⟨x, hx, hxl⟩ := exists_sign (htrim u hu)
    obtain ⟨y, hy, hyl⟩ := exists_sign (htrim v hv)
    exact hxl ▸ hyl ▸ h x hx y hy
  · intro unit hu
    obtain ⟨sign, hs, hl⟩ := exists_sign (htrim unit hu)
    have hm : sign ∈ signs (places script) := hsigns ▸ List.mem_flatMap.2 ⟨unit, hu, hs⟩
    obtain ⟨place, hp, rfl⟩ := List.mem_map.1 hm
    rw [← hl]
    exact hlined.bounds place (List.mem_filter.1 hp).1
  · rw [braces_of_units, hsigns, ← braces_of_places]
  · rw [characters_of_units, hsigns, ← characters_of_places]

end FormulaScript.Script
