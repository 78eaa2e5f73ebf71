import FormulaScript.Proofs.Expr.Separation
import FormulaScript.Proofs.Requests
import FormulaScript.Proofs.Script.Conditions
import FormulaScript.Proofs.Script.Load
import FormulaScript.Proofs.Script.Tests
import Mathlib.Data.List.Forall2

/-!
# Conditions as they are stored

A condition is stored as its test, a conditional that yields 1 or 0. The text of the test is parsed
as a whole, so it is such a conditional only if the condition, taken by itself, closes every
parenthesis that it opens. The parentheses of a condition are counted in its strings too when it is
cut out of the script, but not when it is parsed: a condition with parentheses in its strings may be
stored as something else.
-/

namespace FormulaScript

namespace Token

/-! ## Parentheses of tokens -/

theorem parentheses_of_shape {t u : Token} (h : u.shape = t.shape) :
    u.parentheses = t.parentheses := by
  have hd (symbol : String) : u.isDelimiter symbol = t.isDelimiter symbol :=
    Bool.eq_iff_iff.2 ⟨isDelimiter_of_shape h.symm, isDelimiter_of_shape h⟩
  rw [parentheses, parentheses, hd, hd]

theorem parentheses_scan (text : List Char) :
    (scan text).1.flatMap parentheses = (beforeFinish (scan text).1).flatMap parentheses := by
  obtain ⟨last, hs, hl⟩ := scan_eq text
  have hp : last.parentheses = [] := parentheses_of_kind (by simp [isFinish_iff.1 hl])
  conv_lhs => rw [hs, List.flatMap_append, List.flatMap_singleton, hp, List.append_nil]

end Token

namespace Script

open Token

variable {names : List String} {condition : List Char} {test : Expr}

/-! ## The text of a test -/

theorem scan_wrapped_of_mem (h : '\x00' ∈ condition) :
    Token.scan (wrapped condition) = Token.scan ("if(".toList ++ beforeNul condition) := by
  obtain ⟨before, after, rfl, hn⟩ := List.eq_append_cons_of_mem h
  have hi : '\x00' ∉ "if(".toList := by decide
  have hb : beforeNul (before ++ '\x00' :: after) = before := by
    rw [beforeNul_append hn]
    exact List.append_nil before
  have ht : beforeNul (wrapped (before ++ '\x00' :: after)) = "if(".toList ++ before := by
    rw [wrapped, List.append_assoc, List.append_assoc, beforeNul_append hi, beforeNul_append hn]
    exact congrArg _ (List.append_nil before)
  rw [hb, ← scan_beforeNul, ht]

theorem closed_of_wrapped (hn : '\x00' ∉ condition)
    (h : (Token.scan (wrapped condition)).2 = []) : Closed condition := by
  have hc := closed_of_scan (not_mem_wrapped hn) h
  have ht : wrapped condition = "if(".toList ++ (condition ++ ", 1., 0.)".toList) :=
    List.append_assoc ..
  rw [Closed, ht, lexemes_if] at hc
  have hc : Closed (condition ++ ", 1., 0.)".toList) :=
    (List.forall_mem_cons.1 (List.forall_mem_cons.1 hc).2).2
  exact hc.left (alike_comma " 1., 0.)".toList) (by decide)

/-- A condition has no lexical faults if its test has none. -/
theorem faultless_of_wrapped (h : (Token.scan (wrapped condition)).2 = []) :
    (Token.scan condition).2 = [] := by
  by_cases hn : '\x00' ∈ condition
  · have hi : '\x00' ∉ "if(".toList ++ beforeNul condition := by
      simp [not_mem_beforeNul]
    rw [scan_wrapped_of_mem hn, scan_faultless_iff hi, lexemes_if] at h
    rw [← scan_beforeNul, scan_faultless_iff (not_mem_beforeNul condition)]
    exact (List.forall_mem_cons.1 (List.forall_mem_cons.1 h).2).2
  · have hc := closed_of_wrapped hn h
    rw [scan_faultless_iff (not_mem_wrapped hn), lexemes_wrapped hc] at h
    rw [scan_faultless_iff hn]
    exact (List.forall_mem_cons.1 (List.forall_mem_cons.1 (List.forall_mem_append.1 h).1).2).2

/-- A test is cut short by a NUL in its condition, and cannot close its first parenthesis then. -/
theorem not_mem_of_forms (h : Expr.Forms names (wrapped condition) test)
    (ho : openAfter 0 ((Token.scan condition).1.flatMap parentheses) = some level) :
    '\x00' ∉ condition := fun hn => by
  have hi : '\x00' ∉ "if(".toList ++ beforeNul condition := by simp [not_mem_beforeNul]
  have hs := shapes_scan hi
  rw [← scan_wrapped_of_mem hn, lexemes_if, List.map_cons, List.map_cons,
    ← shapes_scan (not_mem_beforeNul condition), scan_beforeNul] at hs
  obtain ⟨name, us, he, hname, hs⟩ := List.map_eq_cons_iff.1 hs
  obtain ⟨opening, ts, rfl, hopening, hs⟩ := List.map_eq_cons_iff.1 hs
  have hfunction : name.kind = .function := congrArg Prod.fst hname
  have hk : name.kind ≠ .delimiter := by simp [hfunction]
  have hb := h.derives.balanced 0
  rw [he, List.flatMap_cons, List.flatMap_cons, parentheses_of_kind hk,
    parentheses_of_opening (isDelimiter_of_symbol hopening),
    flatMap_of_shape parentheses_of_shape hs, ← parentheses_scan] at hb
  cases hb.symm.trans (openAfter_add ho 1)

/-! ## Tests of conditions -/

/-- The expression is the conditional that yields 1 if the condition holds and 0 otherwise: its
first operand is, but for locations, the expression that the text of the condition forms. -/
def IsTestOf (names : List String) (condition : List Char) (test : Expr) : Prop :=
  ∃ (e e' : Expr) (l l₁ l₀ : Location),
    test = .conditional e (.literal 1.0 l₁) (.literal 0.0 l₀) l ∧
      Expr.Forms names condition e' ∧ e'.same e

theorem eq_of_derives_whole {t : Token} (h : t.shape = (Lexeme.whole digit).shape)
    (hv : Number.decode? [digit, '.'] = some value)
    (hd : Expr.Derives names .assignment [t] e) : e = .literal value t.location := by
  have hk : t.kind = .number (some value) := (congrArg Prod.fst h).trans (congrArg _ hv)
  exact hd.unique (Expr.Derives.number hk).of_operand

/-- Parts that are cut at commas, the last two of one token each, are the parts of any cut. -/
theorem eq_of_listed {ts part₁ part₂ part₃ : List Token} {comma one comma' zero : Token}
    (hl : Expr.Listed [part₁, part₂, part₃] (ts ++ comma :: ([one] ++ comma' :: [zero])))
    (h₂ : Expr.Derives names .assignment part₂ e₂) (h₃ : Expr.Derives names .assignment part₃ e₃)
    (hc : comma.isDelimiter ",") (hc' : comma'.isDelimiter ",")
    (h1 : one.kind ≠ .delimiter) (h0 : zero.kind ≠ .delimiter) :
    part₁ = ts ∧ part₂ = [one] ∧ part₃ = [zero] := by
  obtain ⟨first, us, hs, hd, hl⟩ := hl.exists_comma
  obtain ⟨second, us, rfl, hd', hl⟩ := hl.exists_comma
  cases hl.eq_of_singleton
  have hs' : (ts ++ comma :: [one]) ++ comma' :: [zero] =
      (part₁ ++ first :: part₂) ++ second :: part₃ := by
    simpa using hs
  obtain ⟨hfront, rfl⟩ := h₃.eq_of_last_comma hc' hd' h0 hs'
  obtain ⟨rfl, rfl⟩ := h₂.eq_of_last_comma hc hd h1 hfront.symm
  exact ⟨rfl, rfl, rfl⟩

/-- The test of a condition whose tokens are balanced is a conditional. -/
theorem isTestOf_of_balanced (h : Expr.Forms names (wrapped condition) test)
    (hb : Balanced ((Token.scan condition).1.flatMap parentheses)) :
    IsTestOf names condition test := by
  have hn := not_mem_of_forms h (hb 0)
  obtain ⟨name, opening, ts, comma, one, comma', zero, closing, he, hname, ho, hts, hc, h1, hc', h0,
    -⟩ := exists_tokens hn (closed_of_wrapped hn h.faultless)
  have hc := isDelimiter_of_symbol hc
  have hc' := isDelimiter_of_symbol hc'
  have hk1 : one.kind = .number _ := congrArg Prod.fst h1
  have hk0 : zero.kind = .number _ := congrArg Prod.fst h0
  have hd1 : one.kind ≠ .delimiter := by simp [hk1]
  have hd0 : zero.kind ≠ .delimiter := by simp [hk0]
  have hcomma {t : Token} (hd : t.isDelimiter ",") : t.parentheses = [] :=
    parentheses_of_delimiter hd (by decide) (by decide)
  have hall : (ts ++ comma :: ([one] ++ comma' :: [zero])).flatMap parentheses =
      (Token.scan condition).1.flatMap parentheses := by
    simp [hcomma hc, hcomma hc', parentheses_of_kind hd1, parentheses_of_kind hd0,
      flatMap_of_shape parentheses_of_shape hts, parentheses_scan]
  have hif : name.text = "if" := text_eq_of_shape (t := ⟨.function, "if", 0, {}⟩) hname
  -- the name in front can only be a call of the conditional, with the three parts between commas
  have hd := h.derives
  rw [he] at hd
  obtain ⟨function, hf, arguments, hd, hlist, hcall⟩ := hd.exists_call rfl
    (congrArg Prod.fst hname) (isDelimiter_of_symbol ho) (hall ▸ hb) (by simp [hif])
  rw [hif] at hf
  cases hf
  obtain ⟨⟨part₁, e₁⟩, ⟨part₂, e₂⟩, ⟨part₃, e₃⟩, rfl⟩ :=
    List.length_eq_three.1 ((List.length_map Prod.snd).symm.trans hcall.length_eq)
  obtain ⟨h₁, h₂, h₃, -⟩ := by simpa only [List.forall_mem_cons] using hd
  obtain ⟨rfl, rfl, rfl⟩ := eq_of_listed hlist h₂ h₃ hc hc' hd1 hd0
  have hone : e₂ = .literal 1.0 one.location := eq_of_derives_whole h1 (by decide +kernel) h₂
  have hzero : e₃ = .literal 0.0 zero.location := eq_of_derives_whole h0 (by decide +kernel) h₃
  subst hone hzero
  cases hcall
  have hmem : part₁ ⊆ Token.beforeFinish (Token.scan (wrapped condition)).1 := by
    rw [he]
    intro t ht
    simp [ht]
  obtain ⟨e', he', hsame⟩ := h₁.reshape
    ((Expr.numbersReflexive_scan (wrapped condition)).subset hmem) hts.symm
  exact ⟨e₁, e', _, _, _, rfl, ⟨faultless_of_wrapped h.faultless, he'⟩, hsame⟩

/-- A condition is stored as its test exactly if its parentheses are balanced outside its
strings. -/
theorem isTestOf_iff (h : Expr.Forms names (wrapped condition) test) :
    IsTestOf names condition test ↔
      Balanced ((Token.scan condition).1.flatMap parentheses) := by
  refine ⟨?_, isTestOf_of_balanced h⟩
  rintro ⟨e, e', l, l₁, l₀, -, hf, -⟩
  rw [parentheses_scan]
  exact hf.derives.balanced

/-- The parentheses of a condition are balanced outside its strings if they are balanced both in the
whole condition and in each string. -/
theorem balanced_tokens (h : Expr.Forms names (wrapped condition) test)
    (hb : Balanced condition)
    (hs : ∀ t ∈ (Token.scan condition).1, t.kind = .string → Balanced t.text.toList) :
    Balanced ((Token.scan condition).1.flatMap parentheses) := by
  have ho (level : Nat) : openAfter level ((Token.scan condition).1.flatMap parentheses) =
      openAfter level (beforeNul condition) :=
    openAfter_scanFrom (faultless_of_wrapped h.faultless) hs level
  have hsplit : condition = beforeNul condition ++ condition.dropWhile (· ≠ '\x00') :=
    List.takeWhile_append_dropWhile.symm
  obtain ⟨level, hl⟩ := exists_openAfter_of_balanced (hsplit ▸ hb)
  have hn := not_mem_of_forms h ((ho 0).trans hl)
  have hc : beforeNul condition = condition := by
    simpa [beforeNul] using beforeNul_append hn []
  intro level
  rw [ho, hc]
  exact hb level

open Evaluation in
/-- A test has a value, which is 1 or 0. -/
theorem IsTestOf.exists_value (h : IsTestOf names condition test) (hs : test.Safe n)
    (tolerance : Int) {context : Context} (hl : context.values.length = n) :
    ∃ value left, (test.evaluate tolerance).run context = .ok value left ∧
      (value = 1.0 ∨ value = 0.0) := by
  obtain ⟨e, -, l, l₁, l₀, rfl, -⟩ := h
  cases hs with
  | conditional hs =>
    obtain ⟨holds, left, he, -⟩ := (hs.keeps_evaluate tolerance).exists_ok hl
    rw [Expr.evaluate, EStateM.run_bind, he]
    dsimp only
    split
    · exact ⟨1.0, left, rfl, .inl rfl⟩
    · exact ⟨0.0, left, rfl, .inr rfl⟩

end Script

/-! ## Tests of programs -/

/-- The tests of the `if` and `while` statements, at every depth, in order. -/
def Program.tests : Program → List Expr
  | nil => []
  | equation _ _ rest => rest.tests
  | branch test yes no _ rest => test :: yes.tests ++ no.tests ++ rest.tests
  | loop test body _ rest => test :: body.tests ++ rest.tests

theorem Program.Safe.of_mem_tests {program : Program} (h : program.Safe n) :
    ∀ test ∈ program.tests, test.Safe n := by
  induction program with
  | nil => exact List.forall_mem_nil _
  | equation e line rest ih => exact ih h.2
  | branch test yes no line rest ihy ihn ihr =>
    obtain ⟨ht, hy, hn, hr⟩ := h
    exact List.forall_mem_cons.2 ⟨ht, List.forall_mem_append.2
      ⟨List.forall_mem_append.2 ⟨ihy hy, ihn hn⟩, ihr hr⟩⟩
  | loop test body line rest ihb ihr =>
    obtain ⟨ht, hb, hr⟩ := h
    exact List.forall_mem_cons.2 ⟨ht, List.forall_mem_append.2 ⟨ihb hb, ihr hr⟩⟩

namespace Script

theorem Draft.Forms.tests {draft : Draft} {program : Program} (h : draft.Forms names program) :
    List.Forall₂ (fun condition test => Expr.Forms names (wrapped condition) test)
      draft.conditions program.tests := by
  induction h with
  | done => exact .nil
  | equation _ _ ih => exact ih
  | branch ht _ _ _ ihy ihn ihr => exact .cons ht (List.rel_append (List.rel_append ihy ihn) ihr)
  | loop ht _ _ ihb ihr => exact .cons ht (List.rel_append ihb ihr)

/-- In a script that is parsed without faults every `if` and `while` holds the test of its condition
exactly if the parentheses of the condition are balanced outside its strings. So all do if those of
every string are balanced, and each that does yields 1 or 0. -/
theorem conditions_stored_as_tests {script : Script} {text : String}
    (hs : script = load text ∨ ∃ names, script = parse text names) (hc : script.isClean) :
    let conditions := (Draft.ofScript text.toList).conditions
    List.Forall₂
      (fun condition test => IsTestOf script.vars.names condition test ↔
        Balanced ((Token.scan condition).1.flatMap Token.parentheses))
      conditions script.program.tests ∧
    ((∀ condition ∈ conditions, ∀ t ∈ (Token.scan condition).1, t.kind = .string →
        Balanced t.text.toList) →
      List.Forall₂ (IsTestOf script.vars.names) conditions script.program.tests) ∧
    ∀ condition, ∀ test ∈ script.program.tests, IsTestOf script.vars.names condition test →
      ∀ (tolerance : Int) (context : Context),
        context.values.length = script.vars.values.length →
        ∃ value left, (test.evaluate tolerance).run context = .ok value left ∧
          (value = 1.0 ∨ value = 0.0) := by
  intro conditions
  obtain ⟨names, rfl⟩ : ∃ names, script = parse text names := by
    rcases hs with rfl | hs
    · exact ⟨_, load_eq_of_isClean hc⟩
    · exact hs
  have hforms := (forms_of_isClean hc).tests
  have hbalanced : (Draft.ofScript text.toList).Balanced := balanced_draft true 1 [] _
  refine ⟨hforms.imp fun condition test => isTestOf_iff, fun hstrings => ?_, ?_⟩
  · refine List.forall₂_iff_get.2 ⟨hforms.length_eq, fun i hi hi' => ?_⟩
    have hm := List.getElem_mem hi
    have hf := hforms.get hi hi'
    exact isTestOf_of_balanced hf (balanced_tokens hf (hbalanced _ hm) (hstrings _ hm))
  · intro condition test hm ht tolerance context hl
    exact ht.exists_value ((safe_parse text names).of_mem_tests test hm) tolerance hl

theorem conditions_stored_as_tests_loop :
    (parse "while (b) { a = b; }" ["a", "b"]).isClean ∧
    List.Forall₂ (IsTestOf ["a", "b"]) [['b']]
      (parse "while (b) { a = b; }" ["a", "b"]).program.tests := by
  have h : (parse "while (b) { a = b; }" ["a", "b"]).isClean := by decide +kernel
  have hconditions : (Draft.ofScript "while (b) { a = b; }".toList).conditions = [['b']] := by
    decide +kernel
  have hnames : (parse "while (b) { a = b; }" ["a", "b"]).vars.names = ["a", "b"] := by
    decide +kernel
  have htests := (conditions_stored_as_tests (.inr ⟨_, rfl⟩) h).2.1
  rw [hconditions, hnames] at htests
  refine ⟨h, htests (List.forall_mem_singleton.2 fun t ht hk => ?_)⟩
  exact absurd hk (Token.kind_ne_string 0 {} ['b'] (by decide) t ht)

/-- A parenthesis in a string is taken for one that closes the condition, and what is stored in its
place is no conditional. -/
theorem stored_as_sum :
    (parse "if (print(\"(\"), 2, 3) + print(\")\") { x = 1; }" ["x"]).isClean ∧
    (parse "if (print(\"(\"), 2, 3) + print(\")\") { x = 1; }" ["x"]).program.tests.map
      Expr.kind = ["binary"] := by
  decide +kernel

end Script

end FormulaScript
