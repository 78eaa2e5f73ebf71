import FormulaScript.Proofs.Script.Replacement
import FormulaScript.Proofs.Script.Slices
import FormulaScript.Proofs.Token.Names

/-!
# Structure characters in names

The names of a script are tokens of its texts, and these are cut out of its units. So a semicolon or
a brace in a name is in a string of its unit, which the tokens do not know, or it is a semicolon
that ends a unit within a condition. In a script whose strings are strings for its tokens too, and
without semicolons in its conditions, no name has such a character.
-/

namespace FormulaScript.Script

open Text Token

/-! ## Names of drafts -/

/-- Assembling a draft adds no names but those among the tokens of its texts. -/
theorem Draft.mem_names_of_assemble (draft : Draft) (vars : Variables) (autoAdd : Bool)
    {name : String} (h : (draft.assemble autoAdd vars).diagnostics = [])
    (hm : name ∈ (draft.assemble autoAdd vars).vars.names) :
    name ∈ vars.names ∨
      ∃ text ∈ draft.texts, ∃ t ∈ (scan text).1, t.kind = .name ∧ t.text = name := by
  have equation {text : List Char} {line : Nat} {vars : Variables}
      (h : (parseEquation text line vars autoAdd).diagnostics = [])
      (hm : name ∈ (parseEquation text line vars autoAdd).vars.names) :
      name ∈ vars.names ∨ ∃ t ∈ (scan text).1, t.kind = .name ∧ t.text = name :=
    Expr.mem_names_of_parse (by simpa [parseEquation] using h) hm
  have test {condition : List Char} {line : Nat} {vars : Variables}
      (h : (parseTest condition line vars autoAdd).diagnostics = [])
      (hm : name ∈ (parseTest condition line vars autoAdd).vars.names) :
      name ∈ vars.names ∨
        ∃ t ∈ (scan (wrapped condition)).1, t.kind = .name ∧ t.text = name :=
    Expr.mem_names_of_parse (by simpa [parseTest] using h) hm
  induction draft generalizing vars with
  | done => exact .inl hm
  | broken => cases h
  | equation text line rest ih =>
    obtain ⟨he, hr⟩ := List.append_eq_nil_iff.1 h
    rcases ih _ hr hm with hm | ⟨text', ht, hf⟩
    · exact (equation he hm).imp_right fun hf => ⟨text, List.mem_cons_self, hf⟩
    · exact .inr ⟨text', List.mem_cons_of_mem _ ht, hf⟩
  | branch condition line yes no rest ihy ihn ihr =>
    simp only [assemble, List.append_eq_nil_iff] at h
    obtain ⟨⟨⟨ht, hy⟩, hn⟩, hr⟩ := h
    have found {text : List Char} (hm : text ∈ yes.texts ∨ text ∈ no.texts ∨ text ∈ rest.texts) :
        text ∈ (Draft.branch condition line yes no rest).texts := by
      simp only [texts, List.cons_append, List.mem_cons, List.mem_append, or_assoc]
      exact .inr hm
    rcases ihr _ hr hm with hm | ⟨text, hm, hf⟩
    · rcases ihn _ hn hm with hm | ⟨text, hm, hf⟩
      · rcases ihy _ hy hm with hm | ⟨text, hm, hf⟩
        · exact (test ht hm).imp_right fun hf => ⟨_, List.mem_cons_self, hf⟩
        · exact .inr ⟨text, found (.inl hm), hf⟩
      · exact .inr ⟨text, found (.inr (.inl hm)), hf⟩
    · exact .inr ⟨text, found (.inr (.inr hm)), hf⟩
  | loop condition line body rest ihb ihr =>
    simp only [assemble, List.append_eq_nil_iff] at h
    obtain ⟨⟨ht, hb⟩, hr⟩ := h
    rcases ihr _ hr hm with hm | ⟨text, hm, hf⟩
    · rcases ihb _ hb hm with hm | ⟨text, hm, hf⟩
      · exact (test ht hm).imp_right fun hf => ⟨_, List.mem_cons_self, hf⟩
      · exact .inr ⟨text, List.mem_append_left _ (List.mem_cons_of_mem _ hm), hf⟩
    · exact .inr ⟨text, List.mem_append_right _ hm, hf⟩

/-- The texts that are parsed are the statements and the tests of the conditions. -/
theorem Draft.mem_texts_iff {draft : Draft} {text : List Char} : text ∈ draft.texts ↔
    text ∈ draft.statements ∨ ∃ condition ∈ draft.conditions, wrapped condition = text := by
  induction draft with
  | done | broken => simp [texts, statements, conditions]
  | equation _ _ rest ih =>
    rw [texts, statements, conditions, List.mem_cons, List.mem_cons, ih, or_assoc]
  | branch condition line yes no rest ihy ihn ihr =>
    simp only [texts, statements, conditions, List.cons_append, List.mem_cons, List.mem_append,
      ihy, ihn, ihr]
    grind
  | loop condition line body rest ihb ihr =>
    simp only [texts, statements, conditions, List.cons_append, List.mem_cons, List.mem_append,
      ihb, ihr]
    grind

theorem Draft.Forms.exists_forms {draft : Draft} {program : Program}
    (h : draft.Forms names program) : ∀ text ∈ draft.texts, ∃ e, Expr.Forms names text e := by
  induction h with
  | done => exact List.forall_mem_nil _
  | equation he _ ih => exact List.forall_mem_cons.2 ⟨⟨_, he⟩, ih⟩
  | branch ht _ _ _ ihy ihn ihr =>
    exact List.forall_mem_cons.2 ⟨⟨_, ht⟩, List.forall_mem_append.2
      ⟨List.forall_mem_append.2 ⟨ihy, ihn⟩, ihr⟩⟩
  | loop ht _ _ ihb ihr =>
    exact List.forall_mem_cons.2 ⟨⟨_, ht⟩, List.forall_mem_append.2 ⟨ihb, ihr⟩⟩

theorem Draft.Forms.faultless {draft : Draft} {program : Program} (h : draft.Forms names program) :
    ∀ text ∈ draft.texts, (scan text).2 = [] := by
  intro text ht
  obtain ⟨e, he⟩ := h.exists_forms text ht
  exact he.faultless

/-! ## Names in texts -/

/-- What follows the condition in its test. -/
def testEnd : List Char := [',', ' ', '1', '.', ',', ' ', '0', '.', ')']

theorem wrapped_eq (condition : List Char) :
    wrapped condition = "if(".toList ++ (condition ++ testEnd) :=
  List.append_assoc ..

theorem isLetter_eq_false : ∀ c ∈ marks ++ testEnd, isLetter c = false := by
  have hall : (marks ++ testEnd).all (!isLetter ·) := by decide +kernel
  exact fun c hc => by simpa using List.all_eq_true.1 hall c hc

/-- A name that is in front of a delimiter or behind it, where no letters are, is in front. -/
theorem exists_of_name {text tail front name back : List Char} (hn : IsName name)
    (hd : ∀ c ∈ tail.head?, isDelimiterChar c) (hl : ∀ c ∈ tail, isLetter c = false)
    (h : text ++ tail = front ++ name ++ back) : ∃ rest, text = front ++ name ++ rest := by
  rcases List.append_eq_append_iff.1 h with ⟨more, hf, rfl⟩ | ⟨more, hf, -⟩
  · rcases List.append_eq_append_iff.1 hf with ⟨part, rfl, rfl⟩ | ⟨part, rfl, rfl⟩
    · cases more with
      | nil => exact ⟨[], by simp⟩
      | cons c more =>
        have hc := hn.run c (List.mem_append_right _ List.mem_cons_self)
        rw [hd c rfl] at hc
        cases hc
    · obtain ⟨c, hc, hletter⟩ := hn.letter
      have hm : c ∈ part ++ name ++ back :=
        List.mem_append_left _ (List.mem_append_right _ (List.mem_of_mem_head? hc))
      rw [hl c hm] at hletter
      cases hletter
  · exact ⟨more, hf⟩

/-- A name of a test is one of its condition. -/
theorem exists_of_mem_test {condition : List Char} {t : Token}
    (hf : (scan (wrapped condition)).2 = []) (ht : t ∈ (scan (wrapped condition)).1)
    (hk : t.kind = .name) : IsName t.text.toList ∧
      ∃ front back, condition = front ++ t.text.toList ++ back ∧
        (OnlyStringsQuote (wrapped condition) → ¬ EndsInString front) := by
  let source := condition ++ testEnd
  have hsource : beforeNul (wrapped condition) = "if(".toList ++ beforeNul source := by
    rw [wrapped_eq, beforeNul_append (by decide)]
  have hlexemes : lexemes (beforeNul (wrapped condition)) =
      .ifName :: .symbol '(' :: lexemes (beforeNul source) := by rw [hsource, lexemes_if]
  obtain ⟨lexeme, hl, hs⟩ := exists_lexeme ht (by simp [hk])
  have hkind : lexeme.kind = .name := (congrArg Prod.fst hs).trans hk
  rw [hlexemes] at hl
  have hl : lexeme ∈ lexemes (beforeNul source) := by
    rcases List.mem_cons.1 hl with rfl | hl
    · cases hkind
    · rcases List.mem_cons.1 hl with rfl | hl
      · cases hkind
      · exact hl
  have hfaultless := (scanFrom_lexemes 0 {} (beforeNul (wrapped condition))).2.1 hf
  rw [hlexemes] at hfaultless
  obtain ⟨hname, front, back, he, hq⟩ := exists_of_mem_lexemes
    (fun l hm => hfaultless l (List.mem_cons_of_mem _ (List.mem_cons_of_mem _ hm))) hl hkind
  rw [text_eq_of_lexeme hs] at hname he
  obtain ⟨nul, hnul⟩ : beforeNul source <+: source := List.takeWhile_prefix _
  rw [he, List.append_assoc] at hnul
  have hcomma : ∀ c ∈ testEnd.head?, isDelimiterChar c := by
    rintro _ ⟨⟩
    rfl
  obtain ⟨rest, hc⟩ := exists_of_name hname hcomma
    (fun c hm => isLetter_eq_false c (List.mem_append_right _ hm)) hnul.symm
  refine ⟨hname, front, rest, hc, fun ho => Nat.not_odd_iff_even.2 (hq fun l hm => ?_)⟩
  have hall := ho.lexemes
  rw [hlexemes] at hall
  exact hall l (List.mem_cons_of_mem _ (List.mem_cons_of_mem _ hm))

theorem exists_of_mem_statement {text : List Char} {t : Token} (hf : (scan text).2 = [])
    (ht : t ∈ (scan text).1) (hk : t.kind = .name) : IsName t.text.toList ∧
      ∃ front back, text = front ++ t.text.toList ++ back ∧
        (OnlyStringsQuote text → ¬ EndsInString front) := by
  obtain ⟨lexeme, hl, hs⟩ := exists_lexeme ht (by simp [hk])
  have hkind : lexeme.kind = .name := (congrArg Prod.fst hs).trans hk
  obtain ⟨hname, front, back, he, hq⟩ := exists_of_mem_lexemes
    ((scanFrom_lexemes 0 {} (beforeNul text)).2.1 hf) hl hkind
  rw [text_eq_of_lexeme hs] at hname he
  obtain ⟨nul, hnul⟩ : beforeNul text <+: text := List.takeWhile_prefix _
  refine ⟨hname, front, back ++ nul, ?_, fun ho => Nat.not_odd_iff_even.2 (hq ho.lexemes)⟩
  rw [← hnul, he]
  simp

/-- A name of a draft, at its place in a text and in the unit that the text has it from. -/
structure Placed (us : List SourceUnit) (cutting : Cutting) (parsed source name : List Char)
    (front : List Char) (unit : SourceUnit) (before after : List Char) : Prop where
  text : ∃ back, source = front ++ name ++ back
  quotes : OnlyStringsQuote parsed → '"' ∉ name ∧ ¬ EndsInString front
  traced : Traced us cutting front name unit before after

/-- Every name of a script that loads is a word of a unit: one that a statement has it from, or one
that a condition has it from. -/
theorem exists_placed {text : String} (h : (load text).isClean) {name : String}
    (hm : name ∈ (load text).vars.names) :
    IsName name.toList ∧
      ((∃ parsed ∈ (Draft.ofScript text.toList).statements, ∃ front unit before after,
        Placed (units text.toList) unended parsed parsed name.toList front unit before after) ∨
      ∃ condition ∈ (Draft.ofScript text.toList).conditions, ∃ front unit before after,
        Placed (units text.toList) anyCut (wrapped condition) condition name.toList front unit
          before after) := by
  have hload := load_eq_of_isClean h
  have hharvest : (harvest text).2 = [] := by
    by_contra hd
    have hfailed : load text = .ofDiagnostics (harvest text).2 := by simp [load, hd]
    rw [hfailed] at h
    exact hd (List.isEmpty_iff.1 h)
  obtain ⟨program, -, hforms, hnodup⟩ := forms_of_harvest hharvest
  have hnames : (load text).vars.names = (harvest text).1 := by
    rw [hload, parse_of_forms hnodup hforms]
    exact Variables.names_ofNames hnodup _
  rw [hnames] at hm
  obtain ⟨parsed, hparsed, t, ht, hk, rfl⟩ :=
    (Draft.mem_names_of_assemble _ {} true hharvest hm).resolve_left List.not_mem_nil
  have hf := hforms.faultless parsed hparsed
  have hquote (ho : OnlyStringsQuote parsed) : '"' ∉ t.text.toList := ho t ht (by simp [hk])
  obtain ⟨hstatements, hconditions⟩ := from_ofScript text.toList
  rcases Draft.mem_texts_iff.1 hparsed with hs | ⟨condition, hc, rfl⟩
  · obtain ⟨hname, front, back, he, hq⟩ := exists_of_mem_statement hf ht hk
    obtain ⟨pieces, hj, hp⟩ := hstatements parsed hs
    obtain ⟨unit, before, after, htraced⟩ :=
      hp.exists_traced (hj.trans he) hname.ne_nil hname.not_mem_space
    exact ⟨hname, .inl ⟨parsed, hs, front, unit, before, after, ⟨back, he⟩,
      fun ho => ⟨hquote ho, hq ho⟩, htraced⟩⟩
  · obtain ⟨hname, front, back, he, hq⟩ := exists_of_mem_test hf ht hk
    obtain ⟨pieces, hj, hp⟩ := hconditions condition hc
    obtain ⟨unit, before, after, htraced⟩ :=
      hp.exists_traced (hj.trans he) hname.ne_nil hname.not_mem_space
    exact ⟨hname, .inr ⟨condition, hc, front, unit, before, after, ⟨back, he⟩,
      fun ho => ⟨hquote ho, hq ho⟩, htraced⟩⟩

/-! ## Marks in names -/

section

variable {us : List SourceUnit} {cutting : Cutting} {unit : SourceUnit}
  {front name before after left right : List Char} {c : Char}

theorem letter_of_head (h : IsName (c :: right)) : c ∉ marks := by
  obtain ⟨_, ⟨⟩, hl⟩ := h.letter
  exact fun hc => absurd hl (by simp [isLetter_eq_false c (List.mem_append_left _ hc)])

/-- A mark of a name is in a string of the unit, or ends the unit as a semicolon. -/
theorem Traced.mark (h : Traced us cutting front name unit before after) (hu : unit.Marked)
    (hn : IsName name) (he : name = left ++ c :: right) (hc : c ∈ marks) :
    EndsInString (before ++ left) ∨ c = ';' ∧ right = [] ∧ after = [] := by
  have ht : unit.text = (before ++ left) ++ c :: (right ++ after) := by
    rw [h.text, he]
    simp
  rcases hu _ _ _ ht hc with hs | ⟨ha, hb | hc⟩
  · exact .inl hs
  · -- a name does not start with a mark
    obtain ⟨-, rfl⟩ := List.append_eq_nil_iff.1 hb
    exact absurd hc (letter_of_head (he ▸ hn))
  · obtain ⟨hr, ha⟩ := List.append_eq_nil_iff.1 ha
    exact .inr ⟨hc, hr, ha⟩

/-- The semicolon that ends a unit is left out of a statement. -/
theorem Traced.not_last (h : Traced us unended front (left ++ [';']) unit before after) :
    after ≠ [] := by
  rintro rfl
  obtain ⟨piece, inner, outer, ha, hc, hp⟩ := h.cut
  obtain ⟨rfl, rfl⟩ := List.append_eq_nil_iff.1 ha.symm
  obtain ⟨start, rfl⟩ := hp
  refine hc rfl ?_
  simp

/-- If only strings have quotes and each unit closes its strings, then neither the text nor the unit
is in a string anywhere within the name. -/
theorem Placed.outside {parsed source : List Char}
    (h : Placed us cutting parsed source name front unit before after) (hc : Closing us)
    (ho : OnlyStringsQuote parsed) (he : name = left ++ right) :
    ¬ EndsInString (front ++ left) ∧ ¬ EndsInString (before ++ left) := by
  obtain ⟨hq, hf⟩ := h.quotes ho
  have hleft : ¬ EndsInString left := not_endsInString_of_not_mem fun hm =>
    hq (he ▸ List.mem_append_left _ hm)
  rw [endsInString_append hf, endsInString_append (mt (h.traced.string hc).2 hf)]
  exact ⟨hleft, hleft⟩

end

/-- A semicolon or a brace gets into a name only as what its unit takes for a part of a string, or
as the semicolon that ends a unit within a condition. So no name has any if each unit closes its
strings, if only strings have quotes for the tokens too, and if every semicolon of a condition is in
a string. -/
theorem marks_in_names (text : String) (h : (load text).isClean) :
    let us := units text.toList
    let draft := Draft.ofScript text.toList
    (∀ name ∈ (load text).vars.names, ∃ unit ∈ us, ∃ before after,
      unit.text = before ++ name.toList ++ after ∧
      ∀ left c right, name.toList = left ++ c :: right → c ∈ marks →
        EndsInString (before ++ left) ∨
          c = ';' ∧ right = [] ∧ after = [] ∧
            ∃ condition ∈ draft.conditions, name.toList <:+: condition) ∧
    (Closing us → (∀ parsed ∈ draft.texts, OnlyStringsQuote parsed) →
      (∀ condition ∈ draft.conditions, ∀ left right, condition = left ++ ';' :: right →
        EndsInString left) →
      ∀ name ∈ (load text).vars.names, ∀ c ∈ marks, c ∉ name.toList) := by
  intro us draft
  have hmarked := marked_units text.toList
  refine ⟨fun name hm => ?_, fun hclosing hquotes hconditions name hm c hc hcn => ?_⟩
  · obtain ⟨hn, ⟨_, _, front, unit, before, after, hp⟩ | ⟨condition, hcond, front, unit, before,
      after, hp⟩⟩ := exists_placed h hm
    · refine ⟨unit, hp.traced.mem, before, after, hp.traced.text, fun left c right he hc => ?_⟩
      refine (hp.traced.mark (hmarked unit hp.traced.mem) hn he hc).imp_right ?_
      rintro ⟨rfl, rfl, rfl⟩
      exact absurd rfl (he ▸ hp.traced).not_last
    · refine ⟨unit, hp.traced.mem, before, after, hp.traced.text, fun left c right he hc => ?_⟩
      refine (hp.traced.mark (hmarked unit hp.traced.mem) hn he hc).imp_right ?_
      rintro ⟨rfl, rfl, rfl⟩
      obtain ⟨back, ht⟩ := hp.text
      exact ⟨rfl, rfl, rfl, condition, hcond, front, back, ht.symm⟩
  · obtain ⟨left, right, he⟩ := List.append_of_mem hcn
    obtain ⟨hn, ⟨parsed, hs, front, unit, before, after, hp⟩ | ⟨condition, hcond, front, unit,
      before, after, hp⟩⟩ := exists_placed h hm
    · have ho := hquotes parsed (Draft.mem_texts_iff.2 (.inl hs))
      rcases hp.traced.mark (hmarked unit hp.traced.mem) hn he hc with hstring | ⟨rfl, rfl, rfl⟩
      · exact (hp.outside hclosing ho he).2 hstring
      · exact (he ▸ hp.traced).not_last rfl
    · have ho := hquotes _ (Draft.mem_texts_iff.2 (.inr ⟨condition, hcond, rfl⟩))
      rcases hp.traced.mark (hmarked unit hp.traced.mem) hn he hc with hstring | ⟨rfl, rfl, rfl⟩
      · exact (hp.outside hclosing ho he).2 hstring
      · obtain ⟨back, ht⟩ := hp.text
        refine (hp.outside hclosing ho he).1 (hconditions condition hcond (front ++ left) back ?_)
        rw [ht, he]
        simp

theorem marks_in_names_loop :
    (load "while (b) \x7b print(\"\x7b;\x7d\", a); b = 0; \x7d").isClean ∧
    ∀ name ∈ (load "while (b) \x7b print(\"\x7b;\x7d\", a); b = 0; \x7d").vars.names,
      ∀ c ∈ marks, c ∉ name.toList := by
  have h : (load "while (b) \x7b print(\"\x7b;\x7d\", a); b = 0; \x7d").isClean := by
    decide +kernel
  have hconditions : (Draft.ofScript
      "while (b) \x7b print(\"\x7b;\x7d\", a); b = 0; \x7d".toList).conditions = [['b']] := by
    decide +kernel
  have hclosing : (units "while (b) \x7b print(\"\x7b;\x7d\", a); b = 0; \x7d".toList).all
      (¬ EndsInString ·.text) := by
    decide +kernel
  have hquotes : (Draft.ofScript
      "while (b) \x7b print(\"\x7b;\x7d\", a); b = 0; \x7d".toList).texts.all
      OnlyStringsQuote := by
    decide +kernel
  refine ⟨h, (marks_in_names _ h).2 ?_ ?_ ?_⟩
  · exact fun unit hu => of_decide_eq_true (List.all_eq_true.1 hclosing unit hu)
  · exact fun parsed hp => of_decide_eq_true (List.all_eq_true.1 hquotes parsed hp)
  · rw [hconditions]
    refine List.forall_mem_singleton.2 fun left right he => ?_
    exact absurd (he ▸ List.mem_append_right _ List.mem_cons_self : ';' ∈ ['b']) (by decide)

/-- A semicolon within a condition, and marks in what only the units take for a string, are in the
names. -/
theorem names_with_marks :
    (load "if (a;) \x7b x = 1; \x7d").isClean ∧
    (load "if (a;) \x7b x = 1; \x7d").vars.names = ["a;", "x"] ∧
    (load "x\"\x7b;\x7d\" = 1;").isClean ∧
    (load "x\"\x7b;\x7d\" = 1;").vars.names = ["x\"\x7b;\x7d\""] := by
  decide +kernel

end FormulaScript.Script
