import FormulaScript.Proofs.Number.Spelling
import FormulaScript.Proofs.Text.CodeRange
import FormulaScript.Proofs.Token.Boundaries

/-!
# Numbers are read whole

Where a number ends is decided by the next delimiter and by the character in front of it, and
whether it has a value by its whole text. The two agree: a text with a value is read to its end, and
no further if a delimiter follows it or nothing does.
-/

namespace FormulaScript.Token

open Number Text

variable {text word rest : List Char} {first mark sign previous : Char}

/-! ## Characters of literals -/

theorem isDelimiterChar_of_isDecimalDigit {c : Char} (h : isDecimalDigit c) :
    isDelimiterChar c = false := by
  have hall : delimiters.all (!isDecimalDigit ·) := by decide
  refine Bool.eq_false_iff.2 fun hd => ?_
  simpa [h] using List.all_eq_true.1 hall c (List.contains_iff_mem.1 hd)

theorem isDelimiterChar_of_digitValue? {c : Char} (h : (digitValue? radix c).isSome) :
    isDelimiterChar c = false := by
  have hall : delimiters.all fun c => decide
      (¬ ('0' ≤ c ∧ c ≤ '9') ∧ ¬ ('a' ≤ c ∧ c ≤ 'f') ∧ ¬ ('A' ≤ c ∧ c ≤ 'F')) := by decide
  refine Bool.eq_false_iff.2 fun hd => ?_
  obtain ⟨hdigit, hlower, hupper⟩ :=
    of_decide_eq_true (List.all_eq_true.1 hall c (List.contains_iff_mem.1 hd))
  rw [digitValue?, if_neg hdigit, if_neg hlower, if_neg hupper] at h
  cases h

theorem radix?_of_isDelimiterChar {c : Char} (h : isDelimiterChar c) : radix? c = none := by
  have hall : delimiters.all fun c => (radix? c).isNone := by decide
  exact Option.isNone_iff_eq_none.1 (List.all_eq_true.1 hall c (List.contains_iff_mem.1 h))

theorem isDelimiterChar_of_radix? {c : Char} (h : radix? c = some radix) :
    isDelimiterChar c = false := by
  refine Bool.eq_false_iff.2 fun hd => ?_
  rw [radix?_of_isDelimiterChar hd] at h
  cases h

/-- Whether a character is a decimal digit or a point. -/
def isPlain (c : Char) : Bool := isDecimalDigit c || c = '.'

theorem isDelimiterChar_of_isPlain {c : Char} (h : isPlain c) : isDelimiterChar c = false := by
  rcases Bool.or_eq_true_iff.1 h with h | h
  · exact isDelimiterChar_of_isDecimalDigit h
  · rw [of_decide_eq_true h]
    decide

theorem not_mark_of_isPlain {c : Char} (h : isPlain c) : ¬ (c = 'e' ∨ c = 'E') := by
  rintro (rfl | rfl) <;> revert h <;> decide

theorem isBlank_of_isPlain {c : Char} (h : isPlain c) : isBlank c = false := by
  rcases Bool.or_eq_true_iff.1 h with h | h
  · exact isBlank_of_isDecimalDigit h
  · rw [of_decide_eq_true h]
    decide

theorem ne_quote_of_isPlain {c : Char} (h : isPlain c) : c ≠ '"' := by
  rintro rfl
  revert h
  decide

theorem isPlain_of_isDigits (h : IsDigits text) : ∀ c ∈ text, isPlain c :=
  fun c hc => Bool.or_eq_true_iff.2 (.inl (h.digit c hc))

theorem isPlain_of_isMantissa (h : IsMantissa text) : ∀ c ∈ text, isPlain c := by
  cases h with
  | whole h => exact isPlain_of_isDigits h
  | point h =>
    obtain ⟨hwhole, hfraction⟩ := List.forall_mem_append.1 (isPlain_of_isDigits h)
    exact List.forall_mem_append.2 ⟨hwhole, List.forall_mem_cons.2 ⟨by decide, hfraction⟩⟩

theorem ne_nil_of_isMantissa (h : IsMantissa text) : text ≠ [] := by
  cases h with
  | whole h => exact h.ne_nil
  | point => simp

theorem isPlain_of_isDecimal (h : IsDecimal (first :: word)) : isPlain first := by
  obtain ⟨mantissa, exponent, heq, hm, -⟩ := h
  obtain ⟨c, word, rfl⟩ := List.exists_cons_of_ne_nil (ne_nil_of_isMantissa hm)
  obtain ⟨rfl, -⟩ := List.cons.inj heq
  exact isPlain_of_isMantissa hm _ List.mem_cons_self

theorem isPlain_of_decode? (h : decode? (first :: word) = some value) : isPlain first := by
  rcases literal_cases h with ⟨_, _, _, heq, -, -⟩ | ⟨hd, -⟩
  · rw [(List.cons.inj heq).1]
    decide
  · exact isPlain_of_isDecimal hd

theorem ne_nil_of_decode? (h : decode? text = some value) : text ≠ [] := by
  rintro rfl
  cases h

/-! ## Runs through a text -/

/-- A number that comes to the text goes on to its end at least. -/
def RunsThrough (text : List Char) : Prop :=
  ∀ previous rest, signedRun previous (text ++ rest) =
    text ++ signedRun (text.getLastD previous) rest

theorem runsThrough_of_forall (h : ∀ c ∈ text, isDelimiterChar c = false) : RunsThrough text := by
  intro previous rest
  induction text generalizing previous with
  | nil => rfl
  | cons c text ih =>
    obtain ⟨hc, h⟩ := List.forall_mem_cons.1 h
    rw [List.cons_append, signedRun, hc, ih h, List.getLastD_cons]
    rfl

theorem RunsThrough.append {text' : List Char} (h : RunsThrough text) (h' : RunsThrough text') :
    RunsThrough (text ++ text') := by
  intro previous rest
  have hl : (text ++ text').getLastD previous = text'.getLastD (text.getLastD previous) := by
    simp only [List.getLastD_eq_getLast?, List.getLast?_append]
    cases text'.getLast? <;> rfl
  rw [List.append_assoc, h, h', hl, List.append_assoc]

/-- The sign of an exponent is no end. -/
theorem runsThrough_mark {sign : List Char} (hm : mark = 'e' ∨ mark = 'E')
    (hs : sign = [] ∨ sign = ['+'] ∨ sign = ['-']) : RunsThrough (mark :: sign) := by
  intro previous rest
  rcases hm with rfl | rfl <;> rcases hs with rfl | rfl | rfl <;> rfl

theorem runsThrough_of_isDecimal (h : IsDecimal text) : RunsThrough text := by
  obtain ⟨mantissa, exponent, rfl, hm, he⟩ := h
  have plain {text : List Char} (h : ∀ c ∈ text, isPlain c) : RunsThrough text :=
    runsThrough_of_forall fun c hc => isDelimiterChar_of_isPlain (h c hc)
  refine (plain (isPlain_of_isMantissa hm)).append ?_
  cases he with
  | none => exact plain (List.forall_mem_nil _)
  | mark hmark hsign hd =>
    exact (runsThrough_mark hmark hsign).append (plain (isPlain_of_isDigits hd))

/-- A decimal literal does not end with the mark of an exponent. -/
theorem isPlain_getLastD_of_isDecimal (h : IsDecimal text) (previous : Char) :
    isPlain (text.getLastD previous) := by
  have last (front : List Char) {back : List Char} (hb : ∀ c ∈ back, isPlain c) (hne : back ≠ []) :
      isPlain ((front ++ back).getLastD previous) := by
    rw [List.getLastD_eq_getLast?, List.getLast?_append, List.getLast?_eq_some_getLast hne]
    exact hb _ (List.getLast_mem hne)
  obtain ⟨mantissa, exponent, rfl, hm, he⟩ := h
  cases he with
  | none =>
    rw [List.append_nil]
    exact last [] (isPlain_of_isMantissa hm) (ne_nil_of_isMantissa hm)
  | mark _ _ hd =>
    rw [← List.append_assoc]
    exact last _ (isPlain_of_isDigits hd) hd.ne_nil

theorem signedRun_eq_nil (hp : ¬ (previous = 'e' ∨ previous = 'E'))
    (h : ∀ c ∈ rest.head?, isDelimiterChar c) : signedRun previous rest = [] := by
  cases rest with
  | nil => rfl
  | cons c rest =>
    have hd : isDelimiterChar c := h c rfl
    rw [signedRun, if_pos (by simp [hd, not_or.1 hp])]

/-! ## Runs of literals -/

theorem not_hasRadix_append (h : ¬ HasRadix text) (hne : text ≠ [])
    (hr : ∀ c ∈ rest.head?, radix? c = none) : ¬ HasRadix (text ++ rest) := by
  rintro ⟨mark, digits, radix, heq, hm⟩
  match text with
  | [c] =>
    obtain ⟨-, rfl⟩ := List.cons.inj heq
    rw [hr mark rfl] at hm
    cases hm
  | c :: c' :: tail =>
    obtain ⟨rfl, htail⟩ := List.cons.inj heq
    obtain ⟨rfl, -⟩ := List.cons.inj htail
    exact h ⟨_, _, _, rfl, hm⟩

theorem numberRun_of_hasRadix (h : radix? mark = some radix) :
    numberRun '0' (mark :: rest) = '0' :: run (mark :: rest) := by
  simp [numberRun, h]

theorem numberRun_of_not_hasRadix (h : ¬ HasRadix (first :: rest)) :
    numberRun first rest = first :: signedRun first rest := by
  unfold numberRun
  dsimp only
  rw [if_neg]
  intro hx
  obtain ⟨hf, hx⟩ := Bool.and_eq_true_iff.1 hx
  obtain rfl : first = '0' := of_decide_eq_true hf
  cases rest with
  | nil => cases hx
  | cons mark rest =>
    obtain ⟨radix, hr⟩ := Option.isSome_iff_exists.1 hx
    exact h ⟨mark, rest, radix, rfl, hr⟩

/-- A number that starts with a decimal literal covers it, and goes on from its last character. -/
theorem numberRun_append (h : IsDecimal (first :: word)) (hx : ¬ HasRadix (first :: word))
    (hr : ∀ c ∈ rest.head?, radix? c = none) :
    numberRun first (word ++ rest) =
      first :: word ++ signedRun ((first :: word).getLastD first) rest := by
  have hx : ¬ HasRadix (first :: (word ++ rest)) := not_hasRadix_append hx (List.cons_ne_nil _ _) hr
  have hfirst : isDelimiterChar first = false :=
    isDelimiterChar_of_isPlain (isPlain_of_isDecimal h)
  have hrun : signedRun first (first :: (word ++ rest)) =
      first :: word ++ signedRun ((first :: word).getLastD first) rest :=
    runsThrough_of_isDecimal h first rest
  rw [numberRun_of_not_hasRadix hx, ← hrun, signedRun, hfirst]
  rfl

theorem startsNumber_of_isDecimal (h : IsDecimal (first :: word)) (rest : List Char) :
    startsNumber first (word ++ rest) := by
  have digit {c : Char} (hc : isDecimalDigit c) : isDigit c := Bool.or_eq_true_iff.2 (.inl hc)
  obtain ⟨mantissa, exponent, heq, hm, -⟩ := h
  cases hm with
  | whole h =>
    obtain ⟨c, whole, rfl⟩ := List.exists_cons_of_ne_nil h.ne_nil
    obtain ⟨rfl, -⟩ := List.cons.inj heq
    exact Bool.or_eq_true_iff.2 (.inl (digit (h.digit _ List.mem_cons_self)))
  | @point whole fraction h =>
    cases whole with
    | cons c whole =>
      obtain ⟨rfl, -⟩ := List.cons.inj heq
      exact Bool.or_eq_true_iff.2 (.inl (digit (h.digit _ List.mem_cons_self)))
    | nil =>
      obtain ⟨c, fraction, rfl⟩ := List.exists_cons_of_ne_nil h.ne_nil
      obtain ⟨rfl, rfl⟩ := List.cons.inj heq
      have hc : isDigit c := digit (h.digit c List.mem_cons_self)
      simp [startsNumber, hc]

/-! ## Literals -/

/-- A number that starts with a literal is the literal if a delimiter comes after it. -/
theorem numberRun_literal (h : decode? (first :: word) = some value)
    (hr : ∀ c ∈ rest.head?, isDelimiterChar c) :
    startsNumber first (word ++ rest) ∧ numberRun first (word ++ rest) = first :: word := by
  rcases literal_cases h with ⟨mark, digits, radix, heq, hm, hd⟩ | ⟨hd, hx⟩
  · obtain ⟨rfl, rfl⟩ := List.cons.inj heq
    have hall : (mark :: digits).all (!isDelimiterChar ·) := by
      refine List.all_eq_true.2 (List.forall_mem_cons.2 ⟨?_, fun c hc => ?_⟩)
      · simp [isDelimiterChar_of_radix? hm]
      · simp [isDelimiterChar_of_digitValue? (hd c hc)]
    refine ⟨Bool.or_eq_true_iff.2 (.inl (by decide)), ?_⟩
    rw [List.cons_append, numberRun_of_hasRadix hm, ← List.cons_append, run_append hall hr]
  · refine ⟨startsNumber_of_isDecimal hd rest, ?_⟩
    have hlast := not_mark_of_isPlain (isPlain_getLastD_of_isDecimal hd first)
    rw [numberRun_append hd hx fun c hc => radix?_of_isDelimiterChar (hr c hc),
      signedRun_eq_nil hlast hr, List.append_nil]

theorem Lexeme.read_number (hp : isPlain first) (hs : startsNumber first rest) :
    Lexeme.read first rest = ⟨.number (decode? (numberRun first rest)), numberRun first rest,
      (numberRun first rest).length - 1, if (decode? (numberRun first rest)).isSome then none
        else some (.invalidNumber (String.ofList (numberRun first rest)))⟩ := by
  unfold Lexeme.read
  rw [if_neg (ne_quote_of_isPlain hp), isDelimiterChar_of_isPlain hp, hs]
  rfl

theorem Lexeme.read_literal (h : decode? (first :: word) = some value)
    (hr : ∀ c ∈ rest.head?, isDelimiterChar c) :
    Lexeme.read first (word ++ rest) =
      ⟨.number (some value), first :: word, word.length, none⟩ := by
  obtain ⟨hs, hrun⟩ := numberRun_literal h hr
  rw [read_number (isPlain_of_decode? h) hs, hrun, h]
  rfl

theorem nul_not_mem_of_decode? (h : decode? text = some value) : '\x00' ∉ text := by
  obtain ⟨first, word, rfl⟩ := List.exists_cons_of_ne_nil (ne_nil_of_decode? h)
  have hboundary : ∀ c ∈ ([] : List Char).head?, isDelimiterChar c := nofun
  have hread := Lexeme.read_literal h hboundary
  have hk : (Lexeme.read first (word ++ [])).kind.Runs := by
    rw [hread]
    trivial
  have hd := (Lexeme.delimited_read hk).inside '\x00'
  rw [hread] at hd
  exact fun hm => absurd (hd hm (by decide)) (by decide)

/-! ## Scans -/

/-- The first token of a text that starts with no blank. -/
theorem scanFrom_cons (h : isBlank first = false) (position : Nat) (location : Location)
    (rest : List Char) :
    let lexeme := Lexeme.read first rest
    let tail := scanFrom (position + (lexeme.more + 1))
      (location.advance (first :: rest.take lexeme.more)) (rest.drop lexeme.more)
    scanFrom position location (first :: rest) =
      (lexeme.token position location :: tail.1, lexeme.diagnostics position ++ tail.2) := by
  have hd : (first :: rest).dropWhile isBlank = first :: rest :=
    List.dropWhile_cons_of_neg (by simp [h])
  have ht : (first :: rest).takeWhile isBlank = [] :=
    List.takeWhile_cons_of_neg (by simp [h])
  have hs := scanFrom_eq_cons hd position location
  rw [ht] at hs
  exact hs

/-- The problems of a source all stand in it. -/
theorem Tiles.le_problem (h : Tiles before source tokens problems) :
    ∀ d ∈ problems, ∃ position, d.position = some position ∧ before.length ≤ position := by
  induction h with
  | finish => exact List.forall_mem_nil _
  | token _ _ ih =>
    refine List.forall_mem_append.2 ⟨fun d hd => ?_, fun d hd => ?_⟩
    · obtain ⟨problem, -, rfl⟩ := List.mem_map.1 hd
      exact ⟨_, rfl, by simp⟩
    · obtain ⟨position, hp, hle⟩ := ih d hd
      refine ⟨position, hp, ?_⟩
      simp only [List.length_append] at hle
      omega

theorem head?_beforeNul (h : ∀ c ∈ rest.head?, isDelimiterChar c) :
    ∀ c ∈ (beforeNul rest).head?, isDelimiterChar c := by
  cases rest with
  | nil => exact h
  | cons c rest =>
    by_cases hc : c = '\x00'
    · rw [beforeNul, List.takeWhile_cons_of_neg (by simp [hc])]
      rintro _ ⟨⟩
    · rw [beforeNul, List.takeWhile_cons_of_pos (by simp [hc])]
      exact h

/-- A literal in front of a source without NUL is a token, and the source is read as it is on its
own. -/
theorem scanFrom_literal (h : decode? text = some value)
    (hr : ∀ c ∈ rest.head?, isDelimiterChar c) :
    let tail := scanFrom text.length (.ofText text) rest
    scanFrom 0 {} (text ++ rest) =
      (⟨.number (some value), String.ofList text, 0, {}⟩ :: tail.1, tail.2) := by
  obtain ⟨first, word, rfl⟩ := List.exists_cons_of_ne_nil (ne_nil_of_decode? h)
  have hb := isBlank_of_isPlain (isPlain_of_decode? h)
  have hs := scanFrom_cons hb 0 {} (word ++ rest)
  dsimp only at hs ⊢
  rw [List.cons_append, hs, Lexeme.read_literal h hr, List.take_left, List.drop_left, Nat.zero_add]
  rfl

theorem read_sign (hs : sign = '+' ∨ sign = '-') (rest : List Char) :
    (Lexeme.read sign rest).kind = .delimiter ∧
      (Lexeme.read sign rest).text.head? = some sign := by
  have hq : sign ≠ '"' := by rcases hs with rfl | rfl <;> decide
  have hd : isDelimiterChar sign := by rcases hs with rfl | rfl <;> decide
  refine Lexeme.read_cases sign rest (fun h => absurd h hq) (fun h => absurd h hq)
    (fun _ _ _ _ _ _ => ⟨rfl, rfl⟩) (fun _ _ _ => ⟨rfl, rfl⟩) ?_ ?_ ?_ ?_
  all_goals exact fun _ h => absurd hd h

/-- A text with a value is read whole as a number with this value, if a delimiter follows it or
nothing does, and what comes after it is read as it is on its own: no problem is reported of the
literal. So a sign after it starts the next token, also after a hexadecimal literal that ends with
an `e`, whereas a sign after a decimal literal and the mark of an exponent is always a part of the
number. -/
theorem scan_literal (text : List Char) (h : decode? text = some value) :
    (∀ rest, (∀ c ∈ rest.head?, isDelimiterChar c) →
      let tail := scanFrom text.length (.ofText text) (beforeNul rest)
      scan (text ++ rest) = (⟨.number (some value), String.ofList text, 0, {}⟩ :: tail.1, tail.2) ∧
        ∀ d ∈ tail.2, ∃ position, d.position = some position ∧ text.length ≤ position) ∧
    (∀ sign rest, sign = '+' ∨ sign = '-' → ∃ literal next tokens,
      (scan (text ++ sign :: rest)).1 = literal :: next :: tokens ∧
        literal.text = String.ofList text ∧ next.kind = .delimiter ∧
        next.position = text.length ∧ next.text.toList.head? = some sign) ∧
    (¬ HasRadix text → ∀ mark sign rest, mark = 'e' ∨ mark = 'E' → sign = '+' ∨ sign = '-' →
      ∃ literal tokens, (scan (text ++ mark :: sign :: rest)).1 = literal :: tokens ∧
        literal.position = 0 ∧ literal.kind = .number (decode? literal.text.toList) ∧
        text ++ [mark, sign] <+: literal.text.toList) := by
  have hscan (rest : List Char) : scan (text ++ rest) = scanFrom 0 {} (text ++ beforeNul rest) := by
    rw [scan, beforeNul_append (nul_not_mem_of_decode? h)]
  refine ⟨fun rest hr => ⟨?_, ?_⟩, fun sign rest hs => ?_, fun hx mark sign rest hm hs => ?_⟩
  · rw [hscan]
    exact scanFrom_literal h (head?_beforeNul hr)
  · exact (tiles_scanFrom text (beforeNul rest)).le_problem
  · have hd : isDelimiterChar sign := by rcases hs with rfl | rfl <;> decide
    have hb : isBlank sign = false := by rcases hs with rfl | rfl <;> decide
    have hn : '\x00' ∉ [sign] := by rcases hs with rfl | rfl <;> decide
    have hrest : beforeNul (sign :: rest) = sign :: beforeNul rest := beforeNul_append hn rest
    obtain ⟨hkind, htext⟩ := read_sign hs (beforeNul rest)
    rw [hscan, hrest, scanFrom_literal h (by rintro _ ⟨⟩; exact hd), scanFrom_cons hb]
    refine ⟨_, _, _, rfl, rfl, hkind, rfl, ?_⟩
    rw [Lexeme.token, String.toList_ofList]
    exact htext
  · obtain ⟨first, word, rfl⟩ := List.exists_cons_of_ne_nil (ne_nil_of_decode? h)
    have hdecimal : IsDecimal (first :: word) := by
      rcases literal_cases h with ⟨_, _, radix, heq, hr, -⟩ | ⟨hd, -⟩
      · exact absurd ⟨_, _, radix, heq, hr⟩ hx
      · exact hd
    have hn : '\x00' ∉ [mark, sign] := by
      rcases hm with rfl | rfl <;> rcases hs with rfl | rfl <;> decide
    have hrest : beforeNul (mark :: sign :: rest) = mark :: sign :: beforeNul rest :=
      beforeNul_append hn rest
    have hmark : ∀ c ∈ (mark :: sign :: beforeNul rest).head?, radix? c = none := by
      rintro _ ⟨⟩
      rcases hm with rfl | rfl <;> rfl
    have hrun := numberRun_append hdecimal hx hmark
    have hthrough : signedRun ((first :: word).getLastD first) (mark :: sign :: beforeNul rest) =
        mark :: sign :: signedRun sign (beforeNul rest) := by
      rcases hm with rfl | rfl <;> rcases hs with rfl | rfl <;> rfl
    have hp := isPlain_of_decode? h
    rw [hscan, hrest, List.cons_append, scanFrom_cons (isBlank_of_isPlain hp),
      Lexeme.read_number hp (startsNumber_of_isDecimal hdecimal _), hrun, hthrough]
    refine ⟨_, _, rfl, rfl, ?_, ?_⟩
    · rw [Lexeme.token, String.toList_ofList]
    · rw [Lexeme.token, String.toList_ofList]
      exact ⟨signedRun sign (beforeNul rest), by simp⟩

/-- The sign in `0x1E+1` is an operator, that in `1e-5` is a part of the number. -/
theorem scan_literal_signs :
    (∃ value, decode? "0x1E".toList = some value ∧ ∃ literal next tokens,
      (scan "0x1E+1".toList).1 = literal :: next :: tokens ∧ literal.text = "0x1E" ∧
        next.kind = .delimiter ∧ next.position = 4 ∧ next.text.toList.head? = some '+') ∧
    ∃ value, decode? "1".toList = some value ∧ ¬ HasRadix "1".toList ∧ ∃ literal tokens,
      (scan "1e-5".toList).1 = literal :: tokens ∧ literal.position = 0 ∧
        literal.kind = .number (decode? literal.text.toList) ∧
        "1e-".toList <+: literal.text.toList := by
  have hx : ¬ HasRadix "1".toList := by
    rintro ⟨_, _, _, heq, -⟩
    cases heq
  exact ⟨⟨_, rfl, (scan_literal "0x1E".toList rfl).2.1 '+' ['1'] (.inl rfl)⟩,
    _, rfl, hx, (scan_literal "1".toList rfl).2.2 hx 'e' '-' ['5'] (.inl rfl) (.inr rfl)⟩

end FormulaScript.Token
