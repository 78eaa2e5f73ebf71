import FormulaScript.Proofs.Expr.Recognition
import FormulaScript.Proofs.Token.Prefixes

/-!
# Balanced parentheses

The parentheses of an expression are balanced, both among its tokens and among the characters of its
text: outside strings, every parenthesis is a token of its own.
-/

namespace FormulaScript

def isParenthesis (c : Char) : Bool := c = '(' || c = ')'

/-- The number of parentheses that are open after a text, if it closes none that is not open. -/
def openAfter (level : Nat) : List Char → Option Nat
  | [] => some level
  | c :: rest =>
    if c = '(' then openAfter (level + 1) rest
    else if c = ')' then
      match level with
      | 0 => none
      | level + 1 => openAfter level rest
    else openAfter level rest

/-- A text that closes the parentheses that it opens, and no others. -/
def Balanced (text : List Char) : Prop := ∀ level, openAfter level text = some level

theorem openAfter_append (a b : List Char) (level : Nat) :
    openAfter level (a ++ b) = (openAfter level a).bind (openAfter · b) := by
  induction a generalizing level with
  | nil => rfl
  | cons c a ih =>
    simp only [List.cons_append, openAfter]
    split
    · exact ih _
    · split
      · cases level with
        | zero => rfl
        | succ level => exact ih _
      · exact ih _

theorem openAfter_filter (text : List Char) (level : Nat) :
    openAfter level (text.filter isParenthesis) = openAfter level text := by
  induction text generalizing level with
  | nil => rfl
  | cons c text ih =>
    by_cases hp : isParenthesis c
    · rw [List.filter_cons_of_pos hp]
      simp only [openAfter]
      split
      · exact ih _
      · split
        · cases level with
          | zero => rfl
          | succ level => exact ih _
        · exact ih _
    · rw [List.filter_cons_of_neg hp, ih]
      simp only [isParenthesis, Bool.or_eq_true, decide_eq_true_eq, not_or] at hp
      simp only [openAfter, if_neg hp.1, if_neg hp.2]

theorem openAfter_add {text : List Char} {level left : Nat}
    (h : openAfter level text = some left) (more : Nat) :
    openAfter (level + more) text = some (left + more) := by
  induction text generalizing level with
  | nil =>
    cases h
    rfl
  | cons c text ih =>
    simp only [openAfter] at h ⊢
    split at h
    · next ho =>
      rw [if_pos ho, Nat.add_right_comm]
      exact ih h
    · next ho =>
      rw [if_neg ho]
      split at h
      · next hc =>
        rw [if_pos hc]
        cases level with
        | zero => cases h
        | succ level =>
          rw [Nat.succ_add_eq_add_succ]
          exact ih h
      · next hc =>
        rw [if_neg hc]
        exact ih h

theorem balanced_of_openAfter {text : List Char} (h : openAfter 0 text = some 0) :
    Balanced text := fun level => by
  have ha := openAfter_add h level
  rwa [Nat.zero_add] at ha

theorem exists_openAfter_of_balanced {a b : List Char} (h : Balanced (a ++ b)) :
    ∃ level, openAfter 0 a = some level := by
  have h := h 0
  rw [openAfter_append] at h
  cases ha : openAfter 0 a with
  | none =>
    rw [ha] at h
    cases h
  | some level => exact ⟨level, rfl⟩

theorem balanced_nil : Balanced [] := fun _ => rfl

theorem Balanced.append (ha : Balanced a) (hb : Balanced b) : Balanced (a ++ b) := fun level => by
  rw [openAfter_append, ha, Option.bind_some, hb]

theorem Balanced.group (h : Balanced a) : Balanced ('(' :: a ++ [')']) := fun level => by
  have ho : openAfter level ('(' :: a ++ [')']) = openAfter (level + 1) (a ++ [')']) := rfl
  rw [ho, openAfter_append, h]
  rfl

namespace Token

open Text

/-- The parenthesis that the token is, if it is one. -/
def parentheses (token : Token) : List Char :=
  if token.isDelimiter "(" then ['('] else if token.isDelimiter ")" then [')'] else []

theorem parentheses_of_kind {t : Token} (h : t.kind ≠ .delimiter) : t.parentheses = [] := by
  have hd (s : String) : ¬ t.isDelimiter s := fun hs => h (isDelimiter_iff.1 hs).1
  rw [parentheses, if_neg (hd _), if_neg (hd _)]

theorem parentheses_of_delimiter {t : Token} (h : t.isDelimiter symbol) (ho : symbol ≠ "(")
    (hc : symbol ≠ ")") : t.parentheses = [] := by
  rw [parentheses, if_neg fun hd => ho (isDelimiter_unique h hd),
    if_neg fun hd => hc (isDelimiter_unique h hd)]

theorem parentheses_of_opening {t : Token} (h : t.isDelimiter "(") : t.parentheses = ['('] :=
  if_pos h

theorem parentheses_of_closing {t : Token} (h : t.isDelimiter ")") : t.parentheses = [')'] := by
  rw [parentheses, if_neg fun hd => absurd (isDelimiter_unique h hd) (by decide), if_pos h]

/-! ## The parentheses of a text -/

theorem isParenthesis_eq_false (h : isDelimiterChar c = false) : isParenthesis c = false := by
  have hne (d : Char) (hd : isDelimiterChar d) : c ≠ d := by
    rintro rfl
    rw [hd] at h
    cases h
  simp [isParenthesis, hne '(' (by decide), hne ')' (by decide)]

theorem filter_run (source : List Char) : (run source).filter isParenthesis = [] := by
  refine List.filter_eq_nil_iff.2 fun c hc => ?_
  have hd := List.all_takeWhile (p := (!isDelimiterChar ·)) (l := source)
  rw [isParenthesis_eq_false (by simpa using List.all_eq_true.1 hd c hc)]
  nofun

theorem filter_signedRun (previous : Char) (source : List Char) :
    (signedRun previous source).filter isParenthesis = [] := by
  induction source generalizing previous with
  | nil => rfl
  | cons c source ih =>
    simp only [signedRun]
    split
    · rfl
    · next h =>
      have hc : isParenthesis c = false := by
        by_cases hd : isDelimiterChar c
        · simp only [hd, Bool.true_and, Bool.not_eq_true', Bool.not_eq_false, Bool.and_eq_true,
            Bool.or_eq_true, decide_eq_true_eq] at h
          obtain ⟨rfl | rfl, -⟩ := h <;> decide
        · exact isParenthesis_eq_false (by simpa using hd)
      rw [List.filter_cons_of_neg (by simp [hc]), ih]

/-- A number literal is its first character and some that follow it, with no parenthesis. -/
theorem exists_numberRun (first : Char) (rest : List Char) :
    ∃ text, numberRun first rest = first :: text ∧ text <+: rest ∧
      text.filter isParenthesis = [] := by
  unfold numberRun
  dsimp only
  split
  · exact ⟨_, rfl, List.takeWhile_prefix _, filter_run rest⟩
  · exact ⟨_, rfl, signedRun_prefix _ _, filter_signedRun _ _⟩

theorem operators_not_parenthesis :
    ∀ symbols ∈ twoCharOperators,
      isParenthesis symbols.1 = false ∧ isParenthesis symbols.2 = false := by
  decide

/-- The parentheses that a token outside strings covers are the token itself, if it is one. -/
theorem Lexeme.filter_read {first : Char} (hq : first ≠ '"') (rest : List Char) (position : Nat)
    (location : Location) :
    (first :: rest.take (Lexeme.read first rest).more).filter isParenthesis =
      ((Lexeme.read first rest).token position location).parentheses := by
  have word {kind : Kind} {text : List Char} {problem : Option Problem} (hk : kind ≠ .delimiter)
      (hd : ¬ isDelimiterChar first) (ht : text <+: rest) (hf : text.filter isParenthesis = []) :
      (first :: rest.take text.length).filter isParenthesis =
        ((⟨kind, first :: text, text.length, problem⟩ : Lexeme).token position
          location).parentheses := by
    rw [parentheses_of_kind hk, ← List.prefix_iff_eq_take.1 ht, List.filter_cons_of_neg, hf]
    simp [isParenthesis_eq_false (by simpa using hd)]
  refine Lexeme.read_cases first rest ?_ ?_ ?_ ?_ ?_ ?_ ?_ ?_
  · exact fun h => absurd h hq
  · exact fun h => absurd h hq
  · rintro - - second tail rfl ho
    obtain ⟨h₁, h₂⟩ := operators_not_parenthesis _ (List.contains_iff_mem.1 ho)
    have hne (c : Char) : String.ofList [first, second] ≠ String.ofList [c] := by
      simp [← String.toList_inj]
    have hd : ((⟨.delimiter, [first, second], 1, none⟩ : Lexeme).token position
        location).isDelimiter (String.ofList [first, second]) := isDelimiter_iff.2 ⟨rfl, rfl⟩
    rw [parentheses_of_delimiter hd (hne '(') (hne ')')]
    simp_all
  · intro _ _ _
    have hd : ((⟨.delimiter, [first], 0, none⟩ : Lexeme).token position location).isDelimiter
        (String.ofList [first]) := isDelimiter_iff.2 ⟨rfl, rfl⟩
    by_cases ho : first = '('
    · subst ho
      rw [parentheses_of_opening hd]
      rfl
    · by_cases hc : first = ')'
      · subst hc
        rw [parentheses_of_closing hd]
        rfl
      · have hne (c : Char) (h : first ≠ c) : String.ofList [first] ≠ String.ofList [c] := by
          simpa [← String.toList_inj] using h
        rw [parentheses_of_delimiter hd (hne '(' ho) (hne ')' hc)]
        simp [isParenthesis, ho, hc]
  · intro _ hd _ value? _
    obtain ⟨text, hn, ht, hf⟩ := exists_numberRun first rest
    rw [hn]
    exact word nofun hd ht hf
  · exact fun _ hd _ _ _ => word nofun hd (List.takeWhile_prefix _) (filter_run rest)
  · exact fun _ hd _ _ _ => word nofun hd (List.takeWhile_prefix _) (filter_run rest)
  · exact fun _ hd _ _ => word nofun hd (List.takeWhile_prefix _) (filter_run rest)

theorem filter_blanks {source : List Char} (h : ∀ c ∈ source, isBlank c) :
    source.filter isParenthesis = [] := by
  refine List.filter_eq_nil_iff.2 fun c hc hp => ?_
  simp only [isParenthesis, Bool.or_eq_true, decide_eq_true_eq] at hp
  have hb := h c hc
  rcases hp with rfl | rfl <;> exact absurd hb (by decide)

/-- A string starts with a quote, and if nothing is wrong with it ends with the next one. -/
theorem Lexeme.exists_string {first : Char} {rest : List Char}
    (hk : (Lexeme.read first rest).kind = .string) (hp : (Lexeme.read first rest).problem = none) :
    first = '"' ∧ ∃ text tail, rest = text ++ '"' :: tail ∧ '"' ∉ text := by
  by_cases hf : first = '"'
  · subst hf
    by_cases hq : '"' ∈ rest
    · exact ⟨rfl, List.eq_append_cons_of_mem hq⟩
    · rw [read_unclosed hq] at hp
      cases hp
  · revert hk
    refine Lexeme.read_cases first rest ?_ ?_ ?_ ?_ ?_ ?_ ?_ ?_ <;> simp [hf]

/-- The parentheses that a token covers are the token itself, if it is one, as long as those of a
string are balanced. -/
theorem Lexeme.openAfter_read {first : Char} {rest : List Char}
    (hp : (Lexeme.read first rest).problem = none)
    (hs : (Lexeme.read first rest).kind = .string → Balanced (Lexeme.read first rest).text)
    (position : Nat) (location : Location) (level : Nat) :
    openAfter level ((Lexeme.read first rest).token position location).parentheses =
      openAfter level (first :: rest.take (Lexeme.read first rest).more) := by
  by_cases hk : (Lexeme.read first rest).kind = .string
  · obtain ⟨rfl, text, tail, rfl, ht⟩ := Lexeme.exists_string hk hp
    rw [read_closed ht] at hs ⊢
    have htake : (text ++ '"' :: tail).take (text.length + 1) = text ++ ['"'] := by
      simp [List.take_append, List.take_of_length_le]
    have hquote : openAfter level ('"' :: (text ++ ['"'])) = openAfter level (text ++ ['"']) := rfl
    have hn : ((⟨.string, text, text.length + 1, none⟩ : Lexeme).token position location).kind ≠
        .delimiter := nofun
    rw [parentheses_of_kind hn, htake, hquote, openAfter_append, hs rfl level]
    rfl
  · have hf : first ≠ '"' := by
      rintro rfl
      exact hk (kind_read_quote rest)
    rw [← Lexeme.filter_read hf rest position location, openAfter_filter]

/-- The parentheses of a text are among its tokens, if those in its strings are balanced. -/
theorem openAfter_scanFrom {position : Nat} {location : Location} {source : List Char}
    (hp : (scanFrom position location source).2 = [])
    (hs : ∀ t ∈ (scanFrom position location source).1, t.kind = .string → Balanced t.text.toList)
    (level : Nat) :
    openAfter level ((scanFrom position location source).1.flatMap Token.parentheses) =
      openAfter level source := by
  revert hp hs level
  refine scanFrom_induction (motive := fun source scanned => scanned.2 = [] →
    (∀ t ∈ scanned.1, t.kind = .string → Balanced t.text.toList) → ∀ level,
    openAfter level (scanned.1.flatMap Token.parentheses) = openAfter level source) ?_ ?_ position
    location source
  · intro source position location h _ _ level
    have hb : ∀ c ∈ source, isBlank c := List.dropWhile_eq_nil_iff.1 h
    have hf {position : Nat} {location : Location} :
        parentheses ⟨.finish, "", position, location⟩ = [] := parentheses_of_kind (by simp)
    rw [← openAfter_filter source, filter_blanks hb, List.flatMap_singleton, hf]
  · intro source first rest position location tail h ih hp hs level
    obtain ⟨hp, hpt⟩ := List.append_eq_nil_iff.1 hp
    obtain ⟨hfirst, hst⟩ := List.forall_mem_cons.1 hs
    obtain ⟨blanks, hb, hsource⟩ := exists_trimLeft source
    have hproblem : (Lexeme.read first rest).problem = none := by
      simpa [Lexeme.diagnostics] using hp
    have hstring (hk : (Lexeme.read first rest).kind = .string) :
        Balanced (Lexeme.read first rest).text := by
      have hb := hfirst hk
      rwa [Lexeme.token, String.toList_ofList] at hb
    have hr : first :: rest = (first :: rest.take (Lexeme.read first rest).more) ++
        rest.drop (Lexeme.read first rest).more := by
      rw [List.cons_append, List.take_append_drop]
    have hblanks : openAfter level source = openAfter level (first :: rest) := by
      rw [← openAfter_filter source, hsource, List.filter_append, filter_blanks hb,
        List.nil_append, openAfter_filter, trimLeft, h]
    rw [hblanks, hr, List.flatMap_cons, openAfter_append, openAfter_append,
      Lexeme.openAfter_read hproblem hstring position location level]
    exact congrArg _ (funext fun level => ih hpt hst level)

theorem kind_ne_string (position : Nat) (location : Location) (source : List Char)
    (hq : '"' ∉ source) : ∀ t ∈ (scanFrom position location source).1, t.kind ≠ .string := by
  revert hq
  refine scanFrom_induction (motive := fun source scanned => '"' ∉ source →
    ∀ t ∈ scanned.1, t.kind ≠ .string) ?_ ?_ position location source
  · simp
  · intro source first rest position location tail h ih hq
    have hs : first :: rest <:+ source := h ▸ List.dropWhile_suffix isBlank
    have hf : first ≠ '"' := fun he => hq (hs.subset (he ▸ List.mem_cons_self))
    refine List.forall_mem_cons.2 ⟨?_, ih fun hm => hq (hs.subset ?_)⟩
    · change (Lexeme.read first rest).kind ≠ .string
      refine Lexeme.read_cases first rest ?_ ?_ ?_ ?_ ?_ ?_ ?_ ?_ <;> simp [hf]
    · exact List.mem_cons_of_mem _ (List.mem_of_mem_drop hm)

end Token

/-! ## Expressions -/

namespace Expr

theorem parentheses_of_symbol {t : Token} {ℓ : Level} (h : t.isDelimiter symbol)
    (hs : symbol ∈ ℓ.symbols) : t.parentheses = [] := by
  refine Token.parentheses_of_delimiter h ?_ ?_
  · rintro rfl
    revert hs
    cases ℓ <;> decide
  · rintro rfl
    revert hs
    cases ℓ <;> decide

section

variable {ts us : List Token} {t opening closing : Token}

theorem balanced_between (hts : Balanced (ts.flatMap Token.parentheses))
    (ht : t.parentheses = []) (hus : Balanced (us.flatMap Token.parentheses)) :
    Balanced ((ts ++ t :: us).flatMap Token.parentheses) := by
  rw [List.flatMap_append, List.flatMap_cons, ht, List.nil_append]
  exact hts.append hus

theorem balanced_within (ho : opening.isDelimiter "(")
    (hts : Balanced (ts.flatMap Token.parentheses)) (hc : closing.isDelimiter ")") :
    Balanced ((opening :: ts ++ [closing]).flatMap Token.parentheses) := by
  rw [List.cons_append, List.flatMap_cons, List.flatMap_append, List.flatMap_singleton,
    Token.parentheses_of_opening ho, Token.parentheses_of_closing hc]
  exact hts.group

end

theorem Listed.balanced (h : Listed parts ts)
    (hp : ∀ part ∈ parts, Balanced (part.flatMap Token.parentheses)) :
    Balanced (ts.flatMap Token.parentheses) := by
  induction h with
  | last => exact hp _ List.mem_cons_self
  | cons hc _ ih =>
    obtain ⟨hp, hps⟩ := List.forall_mem_cons.1 hp
    exact balanced_between hp (Token.parentheses_of_delimiter hc (by decide) (by decide)) (ih hps)

/-- The parentheses among the tokens of an expression are balanced. -/
theorem Derives.balanced (h : Derives names ℓ ts e) :
    Balanced (ts.flatMap Token.parentheses) := by
  induction h with
  | tighter _ _ ih => exact ih
  | string hk | number hk | pi hk | slot hk =>
    rw [List.flatMap_singleton, Token.parentheses_of_kind (by simp [hk])]
    exact balanced_nil
  | assign _ _ hd _ ih₁ ih₂ =>
    exact balanced_between ih₁ (parentheses_of_symbol (ℓ := .assignment) hd (by decide)) ih₂
  | update _ _ hop hd _ ih₁ ih₂ =>
    have hm := List.mem_cons_of_mem "=" (List.mem_map_of_mem (f := (·.1)) hop)
    exact balanced_between ih₁ (parentheses_of_symbol (ℓ := .assignment) hd hm) ih₂
  | binary _ hop hd _ _ ih₁ ih₂ =>
    exact balanced_between ih₁ (parentheses_of_symbol hd (Level.mem_symbols_of_operator hop)) ih₂
  | plus hd _ ih | minus hd _ ih | increment hd _ _ ih | decrement hd _ _ ih =>
    rw [List.flatMap_cons, Token.parentheses_of_delimiter hd (by decide) (by decide)]
    exact ih
  | group ho _ hc ih => exact balanced_within ho ih hc
  | call hk _ ho _ hl hc _ ih | print hk _ ho _ hl hc ih =>
    have hts := balanced_within ho (hl.balanced (by simpa using ih)) hc
    rw [List.cons_append, List.flatMap_cons, Token.parentheses_of_kind (by simp [hk])]
    exact hts

/-- The parentheses of an expression's text are those of its tokens, if those of its strings are
balanced. -/
theorem Forms.openAfter_tokens (h : Forms names text e) (hn : '\x00' ∉ text)
    (hs : ∀ t ∈ (Token.scan text).1, t.kind = .string → Balanced t.text.toList) (level : Nat) :
    openAfter level text = some level := by
  obtain ⟨last, hl, hf⟩ := Token.scan_eq text
  have hlast : last.parentheses = [] :=
    Token.parentheses_of_kind (by simp [Token.isFinish_iff.1 hf])
  have hfault := h.faultless
  rw [Token.scan_eq_scanFrom hn] at hs hfault
  rw [← Token.openAfter_scanFrom hfault hs level, ← Token.scan_eq_scanFrom hn, hl,
    List.flatMap_append, List.flatMap_singleton, hlast, List.append_nil]
  exact h.derives.balanced level

/-- The parentheses of the text of an expression are balanced, if it holds no strings. -/
theorem Forms.balanced (h : Forms names text e) (hq : '"' ∉ text) (hn : '\x00' ∉ text) :
    Balanced text := by
  refine h.openAfter_tokens hn fun t ht hk => ?_
  rw [Token.scan_eq_scanFrom hn] at ht
  exact absurd hk (Token.kind_ne_string 0 {} text hq t ht)

end Expr

end FormulaScript
