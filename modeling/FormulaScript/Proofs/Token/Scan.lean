import FormulaScript.Token.Scan
import Mathlib.Data.List.TakeWhile

/-!
# The tokens of a text

Every text has tokens up to one that ends it, which is the last. In a text without lexical faults
every number has its value, and an opening parenthesis follows every function.
-/

namespace FormulaScript.Token

open Text

/-- Every number among the tokens has its value, and an opening parenthesis follows every
function. -/
structure Regular (tokens : List Token) : Prop where
  value : ∀ t ∈ tokens, t.kind ≠ .number none
  opening : ∀ t rest, t :: rest <:+ tokens → t.kind = .function →
    ∃ o us, rest = o :: us ∧ o.isDelimiter "("

/-- An opening parenthesis follows every function. -/
def Opened (tokens : List Token) : Prop :=
  ∀ t rest, t :: rest <:+ tokens → t.kind = .function → ∃ o us, rest = o :: us ∧ o.isDelimiter "("

theorem Opened.suffix (h : Opened ts) (hs : us <:+ ts) : Opened us :=
  fun t rest hr => h t rest (hr.trans hs)

theorem Opened.cons (h : Opened ts)
    (ho : t.kind = .function → ∃ o us, ts = o :: us ∧ o.isDelimiter "(") : Opened (t :: ts) := by
  intro u rest hs hk
  rcases List.suffix_cons_iff.1 hs with hs | hs
  · cases hs
    exact ho hk
  · exact h u rest hs hk

theorem Regular.suffix (h : Regular ts) (hs : us <:+ ts) : Regular us where
  value t ht := h.value t (hs.subset ht)
  opening t rest hr := h.opening t rest (hr.trans hs)

/-! ## Delimiters and ends -/

theorem isDelimiter_iff {t : Token} {s : String} :
    t.isDelimiter s ↔ t.kind = .delimiter ∧ t.text = s := by
  unfold isDelimiter
  split <;> simp_all

theorem isDelimiter_unique {t : Token} {s s' : String} (h : t.isDelimiter s)
    (h' : t.isDelimiter s') : s = s' :=
  (isDelimiter_iff.1 h).2.symm.trans (isDelimiter_iff.1 h').2

theorem isFinish_iff {t : Token} : t.isFinish ↔ t.kind = .finish := by
  unfold isFinish
  split <;> simp_all

theorem isFinish_eq_false {t : Token} (h : t.kind ≠ .finish) : t.isFinish = false :=
  Bool.eq_false_iff.2 fun hf => h (isFinish_iff.1 hf)

/-! ## One token at a time -/

variable {source rest : List Char} {first : Char}

/-- The ways in which a token is read. -/
@[elab_as_elim]
theorem Lexeme.read_cases {motive : Lexeme → Prop} (first : Char) (rest : List Char)
    (string : first = '"' → (rest.takeWhile (· ≠ '"')).length < rest.length →
      motive ⟨.string, rest.takeWhile (· ≠ '"'), (rest.takeWhile (· ≠ '"')).length + 1, none⟩)
    (unclosed : first = '"' → ¬ (rest.takeWhile (· ≠ '"')).length < rest.length →
      motive ⟨.string, rest.takeWhile (· ≠ '"'), (rest.takeWhile (· ≠ '"')).length,
        some .unbalancedQuotes⟩)
    (operator : first ≠ '"' → isDelimiterChar first → ∀ second tail, rest = second :: tail →
      twoCharOperators.contains (first, second) → motive ⟨.delimiter, [first, second], 1, none⟩)
    (delimiter : first ≠ '"' → isDelimiterChar first →
      (∀ second tail, rest = second :: tail → ¬ twoCharOperators.contains (first, second)) →
      motive ⟨.delimiter, [first], 0, none⟩)
    (number : first ≠ '"' → ¬ isDelimiterChar first → startsNumber first rest →
      ∀ value?, Number.decode? (numberRun first rest) = value? →
      motive ⟨.number value?, numberRun first rest, (numberRun first rest).length - 1,
        if value?.isSome then none
        else some (.invalidNumber (String.ofList (numberRun first rest)))⟩)
    (name : first ≠ '"' → ¬ isDelimiterChar first → ¬ startsNumber first rest → isLetter first →
      ((rest.drop (run rest).length).dropWhile isBlank).head? ≠ some '(' →
      motive ⟨.name, first :: run rest, (run rest).length, none⟩)
    (function : first ≠ '"' → ¬ isDelimiterChar first → ¬ startsNumber first rest →
      isLetter first → ((rest.drop (run rest).length).dropWhile isBlank).head? = some '(' →
      motive ⟨.function, first :: run rest, (run rest).length, none⟩)
    (unknown : first ≠ '"' → ¬ isDelimiterChar first → ¬ startsNumber first rest →
      ¬ isLetter first → motive ⟨.unknown, first :: run rest, (run rest).length, none⟩) :
    motive (Lexeme.read first rest) := by
  unfold Lexeme.read
  split
  · dsimp only
    split
    · exact string ‹_› ‹_›
    · exact unclosed ‹_› ‹_›
  · split
    · split
      · split
        · exact operator ‹_› ‹_› _ _ rfl ‹_›
        · next h =>
          refine delimiter ‹_› ‹_› fun second tail heq => ?_
          cases heq
          exact h
      · exact delimiter ‹_› ‹_› nofun
    · split
      · exact number ‹_› ‹_› ‹_› _ rfl
      · dsimp only
        split
        · split
          · exact function ‹_› ‹_› ‹_› ‹_› ‹_›
          · exact name ‹_› ‹_› ‹_› ‹_› ‹_›
        · exact unknown ‹_› ‹_› ‹_› ‹_›

theorem signedRun_prefix (previous : Char) (source : List Char) :
    signedRun previous source <+: source := by
  induction source generalizing previous with
  | nil => exact List.prefix_rfl
  | cons c source ih =>
    simp only [signedRun]
    split
    · exact List.nil_prefix
    · exact List.cons_prefix_cons.2 ⟨rfl, ih c⟩

/-- A token covers no more characters than there are. -/
theorem Lexeme.more_read_le (first : Char) (rest : List Char) :
    (Lexeme.read first rest).more ≤ rest.length := by
  have hrun : (run rest).length ≤ rest.length := (List.takeWhile_prefix _).length_le
  refine Lexeme.read_cases first rest ?_ ?_ ?_ ?_ ?_ ?_ ?_ ?_
  · exact fun _ h => h
  · exact fun _ _ => (List.takeWhile_prefix _).length_le
  · rintro - - second tail rfl -
    simp
  · simp
  · intro _ _ _ value? _
    have hp := signedRun_prefix first rest
    have hs := hp.length_le
    unfold numberRun
    dsimp only
    split <;> simpa
  all_goals exact fun _ _ _ => by simp [hrun]

/-- What follows the first character of a token is the rest of the token and what is left. -/
theorem Lexeme.exists_split_rest (first : Char) (rest : List Char) :
    ∃ word left, rest = word ++ left ∧ (Lexeme.read first rest).more = word.length :=
  ⟨_, _, (List.take_append_drop (Lexeme.read first rest).more rest).symm,
    (List.length_take_of_le (Lexeme.more_read_le first rest)).symm⟩

/-- A token from what was read of it and where it starts. -/
def Lexeme.token (lexeme : Lexeme) (position : Nat) (location : Location) : Token :=
  ⟨lexeme.kind, String.ofList lexeme.text, position, location⟩

/-- The diagnostic of a token that starts at a position, if it has a problem. -/
def Lexeme.diagnostics (lexeme : Lexeme) (position : Nat) : List Diagnostic :=
  lexeme.problem.toList.map fun problem => ⟨problem, none, some position⟩

/-- What holds of the tokens and problems of a text with nothing but blanks, and is kept when a
token is read in front of others, holds of those of every text. -/
theorem scanFrom_induction {motive : List Char → List Token × List Diagnostic → Prop}
    (nil : ∀ source position location, source.dropWhile isBlank = [] →
      motive source ([⟨.finish, "", position, location⟩], []))
    (cons : ∀ source first rest position location tail, source.dropWhile isBlank = first :: rest →
      motive (rest.drop (Lexeme.read first rest).more) tail →
      motive source ((Lexeme.read first rest).token position location :: tail.1,
        (Lexeme.read first rest).diagnostics position ++ tail.2))
    (position : Nat) (location : Location) (source : List Char) :
    motive source (scanFrom position location source) := by
  fun_induction scanFrom position location source with
  | case1 position location source _ _ _ h => exact nil source _ _ h
  | case2 position location source _ _ _ first rest h lexeme _ _ tokens others heq ih =>
    exact cons source first rest _ _ (tokens, others) h (heq ▸ ih)

/-- The first token of a text stands behind the blanks at its start. -/
theorem scanFrom_eq_cons {source : List Char} (h : source.dropWhile isBlank = first :: rest)
    (position : Nat) (location : Location) :
    let start := position + (source.takeWhile isBlank).length
    let place := location.advance (source.takeWhile isBlank)
    let lexeme := Lexeme.read first rest
    let tail := scanFrom (start + (lexeme.more + 1))
      (place.advance (first :: rest.take lexeme.more)) (rest.drop lexeme.more)
    scanFrom position location source =
      (lexeme.token start place :: tail.1, lexeme.diagnostics start ++ tail.2) := by
  dsimp only
  rw [scanFrom]
  split
  · next hnil => simp [h] at hnil
  · next heq =>
    cases h.symm.trans heq
    rfl

/-! ## The last token -/

theorem Lexeme.kind_read_ne_finish : (Lexeme.read first rest).kind ≠ .finish := by
  refine Lexeme.read_cases first rest ?_ ?_ ?_ ?_ ?_ ?_ ?_ ?_ <;> simp

/-- The tokens of a text are some that do not end it and one that does. -/
theorem exists_finish (position : Nat) (location : Location) (source : List Char) :
    ∃ ts last, (scanFrom position location source).1 = ts ++ [last] ∧ last.isFinish ∧
      ∀ t ∈ ts, t.isFinish = false := by
  refine scanFrom_induction (motive := fun _ scanned => ∃ ts last, scanned.1 = ts ++ [last] ∧
    last.isFinish ∧ ∀ t ∈ ts, t.isFinish = false) ?_ ?_ position location source
  · exact fun _ _ _ _ => ⟨[], _, rfl, rfl, by simp⟩
  · rintro source first rest position location ⟨tail, -⟩ - ⟨ts, last, rfl, hl, hf⟩
    refine ⟨_ :: ts, last, List.cons_append, hl, List.forall_mem_cons.2 ⟨?_, hf⟩⟩
    exact isFinish_eq_false Lexeme.kind_read_ne_finish

/-! ## Regular tokens -/

theorem Lexeme.kind_read_of_problem (h : (Lexeme.read first rest).problem = none) :
    (Lexeme.read first rest).kind ≠ .number none := by
  revert h
  refine Lexeme.read_cases first rest ?_ ?_ ?_ ?_ ?_ ?_ ?_ ?_ <;> simp_all

/-- A name is a function if an opening parenthesis is the next character that is no blank. -/
theorem Lexeme.kind_read_eq_function (h : (Lexeme.read first rest).kind = .function) :
    ((rest.drop (Lexeme.read first rest).more).dropWhile isBlank).head? = some '(' := by
  revert h
  refine Lexeme.read_cases first rest ?_ ?_ ?_ ?_ ?_ ?_ ?_ ?_ <;> simp_all

theorem isDelimiter_opening (rest : List Char) (position : Nat) (location : Location) :
    ((Lexeme.read '(' rest).token position location).isDelimiter "(" := by
  have hd : isDelimiterChar '(' := by decide
  have ho (second : Char) : ¬ twoCharOperators.contains ('(', second) := by
    simp [twoCharOperators]
  refine Lexeme.read_cases '(' rest ?_ ?_ ?_ (fun _ _ _ => rfl) ?_ ?_ ?_ ?_ <;> simp_all

theorem opened_scanFrom (position : Nat) (location : Location) (source : List Char) :
    Opened (scanFrom position location source).1 := by
  refine (scanFrom_induction (motive := fun source scanned => Opened scanned.1 ∧
    ((source.dropWhile isBlank).head? = some '(' → ∃ o us, scanned.1 = o :: us ∧
      o.isDelimiter "(")) ?_ ?_ position location source).1
  · intro source position location h
    refine ⟨fun t rest ht hk => ?_, by simp [h]⟩
    have := ht.subset List.mem_cons_self
    simp_all
  · intro source first rest position location tail h ih
    refine ⟨ih.1.cons fun hk => ih.2 (Lexeme.kind_read_eq_function hk), fun hf => ?_⟩
    simp only [h, List.head?_cons, Option.some.injEq] at hf
    subst hf
    exact ⟨_, _, rfl, isDelimiter_opening rest position location⟩

theorem regular_scanFrom (position : Nat) (location : Location) (source : List Char)
    (hp : (scanFrom position location source).2 = []) :
    Regular (scanFrom position location source).1 := by
  refine ⟨?_, opened_scanFrom position location source⟩
  refine scanFrom_induction (motive := fun _ scanned => scanned.2 = [] →
    ∀ t ∈ scanned.1, t.kind ≠ .number none) ?_ ?_ position location source hp
  · intro source position location _ _
    exact List.forall_mem_singleton.2 nofun
  · intro source first rest position location tail _ ih hp
    rw [List.append_eq_nil_iff] at hp
    refine List.forall_mem_cons.2 ⟨?_, ih hp.2⟩
    exact Lexeme.kind_read_of_problem (by simpa [Lexeme.diagnostics] using hp.1)

/-- The tokens before the first one that ends the text. -/
def beforeFinish (tokens : List Token) : List Token := tokens.takeWhile (!·.isFinish)

theorem beforeFinish_append (h : ∀ t ∈ ts, t.isFinish = false) (hl : last.isFinish) :
    beforeFinish (ts ++ last :: us) = ts := by
  unfold beforeFinish
  rw [List.takeWhile_append_of_pos (by simpa using h),
    List.takeWhile_cons_of_neg (by simpa using hl), List.append_nil]

theorem beforeFinish_of_forall (h : ∀ t ∈ ts, t.isFinish = false) : beforeFinish ts = ts := by
  induction ts with
  | nil => rfl
  | cons t ts ih =>
    obtain ⟨ht, hts⟩ := List.forall_mem_cons.1 h
    rw [beforeFinish, List.takeWhile_cons_of_pos (by simpa using ht)]
    exact congrArg _ (ih hts)

theorem scan_eq (source : List Char) : ∃ last, (scan source).1 =
    beforeFinish (scan source).1 ++ [last] ∧ last.isFinish := by
  obtain ⟨ts, last, hs, hl, hf⟩ := exists_finish 0 {} (beforeNul source)
  refine ⟨last, ?_, hl⟩
  rw [scan, hs, beforeFinish_append hf hl]

theorem scan_eq_scanFrom (h : '\x00' ∉ source) : scan source = scanFrom 0 {} source := by
  have hb : beforeNul source = source :=
    List.takeWhile_eq_self_iff.2 fun c hc => decide_eq_true fun hn => h (hn ▸ hc)
  rw [scan, hb]

theorem not_mem_beforeNul (text : List Char) : '\x00' ∉ beforeNul text := fun h => by
  have hn := List.mem_takeWhile_imp h
  simp at hn

/-- What comes after a NUL is not read. -/
theorem scan_beforeNul (text : List Char) : scan (beforeNul text) = scan text := by
  rw [scan_eq_scanFrom (not_mem_beforeNul text), scan]

theorem beforeNul_append {before : List Char} (h : '\x00' ∉ before) (text : List Char) :
    beforeNul (before ++ text) = before ++ beforeNul text :=
  List.takeWhile_append_of_pos fun c hc => by simpa using fun he : c = '\x00' => h (he ▸ hc)

theorem regular_scan (hp : (scan source).2 = []) : Regular (scan source).1 :=
  regular_scanFrom 0 {} (beforeNul source) hp

end FormulaScript.Token
