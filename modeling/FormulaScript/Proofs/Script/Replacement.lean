import FormulaScript.Proofs.Expr.Literals
import FormulaScript.Proofs.Script.Load
import FormulaScript.Proofs.Script.Swaps

/-!
# Replacing a literal of a script

A string literal can be replaced by any other: that changes the text of one string of the program
and nothing else. It takes that the literal is not in a condition, where the parentheses in it
count, or that both literals open and close the same numbers of them.
-/

namespace FormulaScript

/-! ## Programs -/

namespace Program

/-- The texts of the strings, in order. -/
def strings : Program → List String
  | nil => []
  | equation e _ rest => e.strings ++ rest.strings
  | branch test yes no _ rest => test.strings ++ yes.strings ++ no.strings ++ rest.strings
  | loop test body _ rest => test.strings ++ body.strings ++ rest.strings

/-- The program with no texts in its strings. -/
def erase : Program → Program
  | nil => nil
  | equation e line rest => equation e.erase line rest.erase
  | branch test yes no line rest => branch test.erase yes.erase no.erase line rest.erase
  | loop test body line rest => loop test.erase body.erase line rest.erase

/-- The lines of the statements, in order. -/
def lines : Program → List Nat
  | nil => []
  | equation _ line rest => line :: rest.lines
  | branch _ yes no line rest => line :: yes.lines ++ no.lines ++ rest.lines
  | loop _ body line rest => line :: body.lines ++ rest.lines

/-- The texts of two programs differ in `n` strings, and nothing else of the programs does but for
locations. -/
structure SwapsString (s t : String) (n : Nat) (p q : Program) : Prop where
  same : q.erase.same p.erase
  lines : q.lines = p.lines
  strings : Swaps [s] [t] n p.strings q.strings

end Program

/-- With a literal of a text replaced the text forms the same expression but for that string. -/
theorem Expr.Forms.exists_replaced {x y : Literal} {n : Nat} {text text' : List Char}
    (h : Forms names text e) (ht : SwapsText x y n text text') (hn : n ≤ 1)
    (hs : ∀ before after, text = before ++ x.quoted ++ after → text' = before ++ y.quoted ++ after →
      Token.Surround before after) :
    ∃ e', Forms names text' e' ∧
      SwapsString (String.ofList x.text) (String.ofList y.text) n e e' := by
  obtain rfl | rfl := Nat.le_one_iff_eq_zero_or_eq_one.1 hn
  · exact ⟨e, ht.eq_of_zero ▸ h, h.refl _ _⟩
  · obtain ⟨before, after, rfl, rfl⟩ := ht.exists_of_one
    obtain ⟨ls, ls', hz⟩ := hs before after rfl rfl
    exact h.exists_swapped (hz x) (hz y)

namespace Script

/-! ## Drafts -/

/-- The texts that are parsed, in order. -/
def Draft.texts : Draft → List (List Char)
  | .done | .broken _ => []
  | .equation text _ rest => text :: rest.texts
  | .branch condition _ yes no rest =>
    wrapped condition :: yes.texts ++ no.texts ++ rest.texts
  | .loop condition _ body rest => wrapped condition :: body.texts ++ rest.texts

theorem Draft.Forms.whole {draft : Draft} {program : Program} (h : draft.Forms names program) :
    draft.Whole fun _ => True := by
  induction h with
  | done => trivial
  | equation _ _ ih => exact ih
  | branch _ _ _ _ ihy ihn ihr => exact ⟨trivial, ihy, ihn, ihr⟩
  | loop _ _ _ ihb ihr => exact ⟨trivial, ihb, ihr⟩

variable {x y : Literal} {n : Nat} {d d' : Draft}

theorem swapsText_wrapped {condition condition' : List Char}
    (h : SwapsText x y n condition condition') :
    SwapsText x y n (wrapped condition) (wrapped condition') := by
  have ht := ((Swaps.refl "if(".toList).append h).append (.refl ", 1., 0.)".toList)
  rwa [Nat.zero_add] at ht

theorem SwapsDraft.texts (h : SwapsDraft x y n d d') :
    Tally (SwapsText x y) n d.texts d'.texts := by
  induction h with
  | done => exact .nil
  | equation _ ht _ ih => exact .cons ht ih
  | branch _ hc _ _ _ ihy ihn ihr =>
    exact ((Tally.cons (swapsText_wrapped hc) ihy).append ihn).append ihr
  | loop _ hc _ _ ihb ihr => exact (Tally.cons (swapsText_wrapped hc) ihb).append ihr

/-- Where two lists of texts differ in a literal, any literal can stand. -/
def Surrounds (x y : Literal) (ts us : List (List Char)) : Prop :=
  ∀ before after, (before ++ x.quoted ++ after, before ++ y.quoted ++ after) ∈ ts.zip us →
    Token.Surround before after

theorem Surrounds.symm {ts us : List (List Char)} (h : Surrounds x y ts us) :
    Surrounds y x us ts := by
  intro before after hm
  rw [← List.zip_swap] at hm
  obtain ⟨⟨t, u⟩, hm, he⟩ := List.mem_map.1 hm
  cases he
  exact h before after hm

theorem Surrounds.head {t u : List Char} {ts us : List (List Char)}
    (h : Surrounds x y (t :: ts) (u :: us)) (before after : List Char)
    (ht : t = before ++ x.quoted ++ after) (hu : u = before ++ y.quoted ++ after) :
    Token.Surround before after :=
  h before after (ht ▸ hu ▸ List.mem_cons_self)

theorem Surrounds.tail {t u : List Char} {ts us : List (List Char)}
    (h : Surrounds x y (t :: ts) (u :: us)) : Surrounds x y ts us :=
  fun before after hm => h before after (List.mem_cons_of_mem _ hm)

theorem Surrounds.append {ts ts' us us' : List (List Char)}
    (h : Surrounds x y (ts ++ ts') (us ++ us')) (hl : ts.length = us.length) :
    Surrounds x y ts us ∧ Surrounds x y ts' us' := by
  unfold Surrounds at h
  rw [List.zip_append hl] at h
  exact ⟨fun before after hm => h before after (List.mem_append_left _ hm),
    fun before after hm => h before after (List.mem_append_right _ hm)⟩

/-- With a literal of the draft replaced the draft forms the same program but for that string. -/
theorem SwapsDraft.exists_forms {program : Program} (h : SwapsDraft x y n d d') (hn : n ≤ 1)
    (hs : Surrounds x y d.texts d'.texts) (hf : d.Forms names program) :
    ∃ program', d'.Forms names program' ∧
      program.SwapsString (String.ofList x.text) (String.ofList y.text) n program' := by
  induction h generalizing program with
  | done =>
    cases hf
    exact ⟨.nil, .done, rfl, rfl, .nil⟩
  | equation line ht hd ih =>
    cases hf with
    | equation he hr =>
    obtain ⟨e', he', hesame, hestrings⟩ := he.exists_replaced ht (by omega) hs.head
    obtain ⟨rest', hr', hrsame, hrlines, hrstrings⟩ := ih (by omega) hs.tail hr
    refine ⟨.equation e' line rest', .equation he' hr', ?_, ?_, hestrings.append hrstrings⟩
    · simp [Program.erase, Program.same, hesame, hrsame]
    · simp [Program.lines, hrlines]
  | branch line hc hyes hno hrest ihy ihn ihr =>
    cases hf with
    | branch ht hy hno' hr =>
    have hcy := Tally.cons (swapsText_wrapped hc) hyes.texts
    obtain ⟨hs, hsr⟩ := hs.append (hcy.append hno.texts).length_eq
    obtain ⟨hs, hsn⟩ := hs.append hcy.length_eq
    obtain ⟨test', ht', htsame, htstrings⟩ :=
      ht.exists_replaced (swapsText_wrapped hc) (by omega) hs.head
    obtain ⟨yes', hy', hysame, hylines, hystrings⟩ := ihy (by omega) hs.tail hy
    obtain ⟨no', hn', hnsame, hnlines, hnstrings⟩ := ihn (by omega) hsn hno'
    obtain ⟨rest', hr', hrsame, hrlines, hrstrings⟩ := ihr (by omega) hsr hr
    refine ⟨.branch test' yes' no' line rest', .branch ht' hy' hn' hr', ?_, ?_,
      ((htstrings.append hystrings).append hnstrings).append hrstrings⟩
    · simp [Program.erase, Program.same, htsame, hysame, hnsame, hrsame]
    · simp [Program.lines, hylines, hnlines, hrlines]
  | loop line hc hbody hrest ihb ihr =>
    cases hf with
    | loop ht hb hr =>
    obtain ⟨hs, hsr⟩ := hs.append (Tally.cons (swapsText_wrapped hc) hbody.texts).length_eq
    obtain ⟨test', ht', htsame, htstrings⟩ :=
      ht.exists_replaced (swapsText_wrapped hc) (by omega) hs.head
    obtain ⟨body', hb', hbsame, hblines, hbstrings⟩ := ihb (by omega) hs.tail hb
    obtain ⟨rest', hr', hrsame, hrlines, hrstrings⟩ := ihr (by omega) hsr hr
    refine ⟨.loop test' body' line rest', .loop ht' hb' hr', ?_, ?_,
      (htstrings.append hbstrings).append hrstrings⟩
    · simp [Program.erase, Program.same, htsame, hbsame, hrsame]
    · simp [Program.lines, hblines, hrlines]

/-! ## Literals outside conditions -/

variable {z : Literal} {m : Nat} {e : Draft}

/-- Two replacements in a row are one, if the literal between them is too long to be in the draft
already. -/
theorem SwapsDraft.trans_of_length (h : SwapsDraft x z m d e) (h' : SwapsDraft z y n e d')
    (hm : m ≤ 1) (hn : n ≤ 1) (hl : ∀ text ∈ d.texts, text.length < z.text.length) :
    n ≤ m ∧ (n = m → SwapsDraft x y m d d') := by
  have shorter (condition : List Char) : condition.length < (wrapped condition).length := by
    have hword : "if(".toList.length = 3 := rfl
    simp only [wrapped, List.length_append]
    omega
  induction h generalizing n d' with
  | done =>
    cases h'
    exact ⟨Nat.le_refl 0, fun _ => .done⟩
  | equation line ht _ ih =>
    cases h' with
    | equation _ ht' hr' =>
    obtain ⟨hlt, hlr⟩ := List.forall_mem_cons.1 hl
    obtain ⟨htle, hteq⟩ := ht.trans_of_length ht' (by omega) (by omega) hlt
    obtain ⟨hrle, hreq⟩ := ih hr' (by omega) (by omega) hlr
    exact ⟨by omega, fun _ => .equation line (hteq (by omega)) (hreq (by omega))⟩
  | branch line hc _ _ _ ihy ihn ihr =>
    cases h' with
    | branch _ hc' hy' hn' hr' =>
    obtain ⟨hl, hlr⟩ := List.forall_mem_append.1 hl
    obtain ⟨hl, hln⟩ := List.forall_mem_append.1 hl
    obtain ⟨hlc, hly⟩ := List.forall_mem_cons.1 hl
    obtain ⟨hcle, hceq⟩ := hc.trans_of_length hc' (by omega) (by omega) ((shorter _).trans hlc)
    obtain ⟨hyle, hyeq⟩ := ihy hy' (by omega) (by omega) hly
    obtain ⟨hnle, hneq⟩ := ihn hn' (by omega) (by omega) hln
    obtain ⟨hrle, hreq⟩ := ihr hr' (by omega) (by omega) hlr
    exact ⟨by omega, fun _ => .branch line (hceq (by omega)) (hyeq (by omega)) (hneq (by omega))
      (hreq (by omega))⟩
  | loop line hc _ _ ihb ihr =>
    cases h' with
    | loop _ hc' hb' hr' =>
    obtain ⟨hl, hlr⟩ := List.forall_mem_append.1 hl
    obtain ⟨hlc, hlb⟩ := List.forall_mem_cons.1 hl
    obtain ⟨hcle, hceq⟩ := hc.trans_of_length hc' (by omega) (by omega) ((shorter _).trans hlc)
    obtain ⟨hble, hbeq⟩ := ihb hb' (by omega) (by omega) hlb
    obtain ⟨hrle, hreq⟩ := ihr hr' (by omega) (by omega) hlr
    exact ⟨by omega, fun _ => .loop line (hceq (by omega)) (hbeq (by omega)) (hreq (by omega))⟩

variable {before after : List Char}

/-- The literal between the texts stands in no condition of the script: they all stay as they are
when a literal that opens and closes the same numbers of parentheses takes its place. -/
def Outside (x : Literal) (before after : List Char) : Prop :=
  ∀ z : Literal, x.Matches z →
    (Draft.ofScript (before ++ z.quoted ++ after)).conditions =
      (Draft.ofScript (before ++ x.quoted ++ after)).conditions

theorem SwapsDraft.conditions_eq (h : SwapsDraft x y n d d')
    (hx : ∀ condition ∈ d.conditions, ¬ x.quoted <:+: condition) :
    d'.conditions = d.conditions := by
  induction h with
  | done => rfl
  | equation _ _ _ ih => exact ih hx
  | branch _ hc _ _ _ ihy ihn ihr =>
    obtain ⟨hx, hr⟩ := List.forall_mem_append.1 hx
    obtain ⟨hx, hn⟩ := List.forall_mem_append.1 hx
    obtain ⟨hxc, hy⟩ := List.forall_mem_cons.1 hx
    cases hc.eq_zero_of_not_infix hxc
    simp only [Draft.conditions, hc.eq_of_zero, ihy hy, ihn hn, ihr hr]
  | loop _ hc _ _ ihb ihr =>
    obtain ⟨hx, hr⟩ := List.forall_mem_append.1 hx
    obtain ⟨hxc, hb⟩ := List.forall_mem_cons.1 hx
    cases hc.eq_zero_of_not_infix hxc
    simp only [Draft.conditions, hc.eq_of_zero, ihb hb, ihr hr]

/-- A literal that is in no condition as a text does not stand in one. -/
theorem outside_of_not_infix (hm : Mode.code.after before = .code)
    (hw : (Draft.ofScript (before ++ x.quoted ++ after)).Whole (¬ x.quoted <:+: ·)) :
    Outside x before after := by
  obtain ⟨hw, hx⟩ := Draft.whole_iff.1 hw
  exact fun z hz =>
    (swapsDraft_ofScript hm (Draft.whole_iff.2 ⟨hw, fun _ _ => .inl hz⟩)).conditions_eq hx

/-- Outside conditions any literal can stand. -/
theorem swapsDraft_outside (hm : Mode.code.after before = .code) (ho : Outside x before after)
    (hw : (Draft.ofScript (before ++ x.quoted ++ after)).Whole fun _ => True) :
    SwapsDraft x y 1 (Draft.ofScript (before ++ x.quoted ++ after))
      (Draft.ofScript (before ++ y.quoted ++ after)) := by
  generalize hd : Draft.ofScript (before ++ x.quoted ++ after) = d at hw ⊢
  -- a literal too long for the texts of the draft stands in one place only
  obtain ⟨z, hz, hlong⟩ := x.exists_longer (d.texts.flatten.length + d.conditions.flatten.length)
  have hxz : SwapsDraft x z 1 d (Draft.ofScript (before ++ z.quoted ++ after)) :=
    hd ▸ swapsDraft_ofScript hm (Draft.whole_iff.2 ⟨hd ▸ hw, fun _ _ => .inl hz⟩)
  have hfits : ∀ condition ∈ (Draft.ofScript (before ++ z.quoted ++ after)).conditions,
      z.Fits y condition := by
    rw [ho z hz, hd]
    refine fun condition hc => .inr fun hi => ?_
    have hcondition := (List.sublist_flatten_of_mem hc).length_le
    have hquoted := hi.length_le
    simp only [List.length_cons, List.length_append] at hquoted
    omega
  have hzy : SwapsDraft z y 1 (Draft.ofScript (before ++ z.quoted ++ after))
      (Draft.ofScript (before ++ y.quoted ++ after)) :=
    swapsDraft_ofScript hm (Draft.whole_iff.2 ⟨hxz.whole, hfits⟩)
  obtain ⟨-, hxy⟩ := hxz.trans_of_length hzy (Nat.le_refl 1) (Nat.le_refl 1) fun text ht => by
    have htext := (List.sublist_flatten_of_mem ht).length_le
    omega
  exact hxy rfl

/-! ## Scripts -/

variable {names : List String}

/-- A script that is parsed without faults still is when a literal of it is replaced. -/
theorem isClean_replaced (hm : Mode.code.after before = .code)
    (hs : Surrounds x y (Draft.ofScript (before ++ x.quoted ++ after)).texts
      (Draft.ofScript (before ++ y.quoted ++ after)).texts)
    (hxy : x.Matches y ∨ Outside x before after)
    (hc : (parse (String.ofList (before ++ x.quoted ++ after)) names).isClean) :
    (parse (String.ofList (before ++ y.quoted ++ after)) names).isClean ∧
    (parse (String.ofList (before ++ y.quoted ++ after)) names).vars =
      (parse (String.ofList (before ++ x.quoted ++ after)) names).vars ∧
    (parse (String.ofList (before ++ x.quoted ++ after)) names).program.SwapsString
      (String.ofList x.text) (String.ofList y.text) 1
      (parse (String.ofList (before ++ y.quoted ++ after)) names).program := by
  have hforms := forms_of_isClean hc
  have hvars := vars_of_isClean hc
  rw [String.toList_ofList] at hforms
  have hd : SwapsDraft x y 1 (Draft.ofScript (before ++ x.quoted ++ after))
      (Draft.ofScript (before ++ y.quoted ++ after)) := by
    rcases hxy with hxy | ho
    · exact swapsDraft_ofScript hm (Draft.whole_iff.2 ⟨hforms.whole, fun _ _ => .inl hxy⟩)
    · exact swapsDraft_outside hm ho hforms.whole
  obtain ⟨program', hforms', hswaps⟩ := hd.exists_forms (Nat.le_refl 1) hs hforms
  rw [hvars] at hforms'
  have hparse : parse (String.ofList (before ++ y.quoted ++ after)) names = _ :=
    parse_eq_of_forms (by rwa [String.toList_ofList])
  rw [hparse, hvars]
  exact ⟨rfl, rfl, hswaps⟩

/-- The result does not depend on a literal: with another one in its place a script is parsed to the
same program, but for the text of that string, or not parsed either. Outside conditions any literal
can take its place, in a condition one that opens and closes the same numbers of parentheses. -/
theorem parse_replaced_literal (hm : Mode.code.after before = .code)
    (hs : ∀ front back, (front ++ x.quoted ++ back, front ++ y.quoted ++ back) ∈
        (Draft.ofScript (before ++ x.quoted ++ after)).texts.zip
          (Draft.ofScript (before ++ y.quoted ++ after)).texts →
      Token.StringAt (front ++ x.quoted ++ back) front.length)
    (hxy : x.Matches y ∨ Outside x before after ∧ Outside y before after)
    (names : List String) :
    let first := parse (String.ofList (before ++ x.quoted ++ after)) names
    let second := parse (String.ofList (before ++ y.quoted ++ after)) names
    first.isClean = second.isClean ∧
    (first.isClean →
      second.vars = first.vars ∧
      second.program.lines = first.program.lines ∧
      second.program.erase.same first.program.erase ∧
      ∃ l l', first.program.strings = l ++ String.ofList x.text :: l' ∧
        second.program.strings = l ++ String.ofList y.text :: l') := by
  intro first second
  have hsurrounds : Surrounds x y (Draft.ofScript (before ++ x.quoted ++ after)).texts
      (Draft.ofScript (before ++ y.quoted ++ after)).texts :=
    fun front back hp => (hs front back hp).surround
  have hfirst : x.Matches y ∨ Outside x before after := hxy.imp_right And.left
  have hsecond : y.Matches x ∨ Outside y before after := hxy.imp Literal.Matches.symm And.right
  refine ⟨Bool.eq_iff_iff.2 ⟨fun hc => (isClean_replaced hm hsurrounds hfirst hc).1,
    fun hc => (isClean_replaced hm hsurrounds.symm hsecond hc).1⟩, fun hc => ?_⟩
  obtain ⟨-, hvars, hswaps⟩ := isClean_replaced hm hsurrounds hfirst hc
  obtain ⟨l, l', hl, hl'⟩ := hswaps.strings.exists_of_one
  refine ⟨hvars, hswaps.lines, hswaps.same, l, l', ?_, ?_⟩
  · exact hl.trans (List.append_cons ..).symm
  · exact hl'.trans (List.append_cons ..).symm

theorem parse_replaced_literal_loop :
    Mode.code.after "while (b) \x7b print(".toList = .code ∧
    (parse "while (b) \x7b print(\"a\"); \x7d" ["b"]).isClean ∧
    (parse "while (b) \x7b print(\")\"); \x7d" ["b"]).isClean ∧
    (parse "while (b) \x7b print(\")\"); \x7d" ["b"]).program.erase.same
      (parse "while (b) \x7b print(\"a\"); \x7d" ["b"]).program.erase := by
  let x : Literal := ⟨['a'], by decide, by decide, by decide⟩
  let y : Literal := ⟨[')'], by decide, by decide, by decide⟩
  have hm : Mode.code.after "while (b) \x7b print(".toList = .code := by decide
  have hx : (parse "while (b) \x7b print(\"a\"); \x7d" ["b"]).isClean := by decide +kernel
  have hy : (parse "while (b) \x7b print(\")\"); \x7d" ["b"]).isClean := by decide +kernel
  have hconditions :
      (Draft.ofScript "while (b) \x7b print(\"a\"); \x7d".toList).conditions = [['b']] ∧
      (Draft.ofScript "while (b) \x7b print(\")\"); \x7d".toList).conditions = [['b']] := by
    decide +kernel
  have houtside : Outside x "while (b) \x7b print(".toList "); \x7d".toList :=
    outside_of_not_infix hm (Draft.whole_iff.2 ⟨(forms_of_isClean hx).whole,
      hconditions.1 ▸ List.forall_mem_singleton.2 (by decide)⟩)
  have houtside' : Outside y "while (b) \x7b print(".toList "); \x7d".toList :=
    outside_of_not_infix hm (Draft.whole_iff.2 ⟨(forms_of_isClean hy).whole,
      hconditions.2 ▸ List.forall_mem_singleton.2 (by decide)⟩)
  have htexts : (Draft.ofScript "while (b) \x7b print(\"a\"); \x7d".toList).texts.zip
      (Draft.ofScript "while (b) \x7b print(\")\"); \x7d".toList).texts =
        [("if(b, 1., 0.)".toList, "if(b, 1., 0.)".toList),
          ("print(\"a\")".toList, "print(\")\")".toList)] := by decide +kernel
  have h := parse_replaced_literal (x := x) (y := y) hm (fun front back hp => ?_)
    (.inr ⟨houtside, houtside'⟩) ["b"]
  · exact ⟨hm, hx, hy, (h.2 hx).2.2.1⟩
  · change _ ∈ (Draft.ofScript "while (b) \x7b print(\"a\"); \x7d".toList).texts.zip
      (Draft.ofScript "while (b) \x7b print(\")\"); \x7d".toList).texts at hp
    rw [htexts] at hp
    rcases List.mem_cons.1 hp with hp | hp
    · have ht : front ++ x.quoted ++ back = "if(b, 1., 0.)".toList := congrArg Prod.fst hp
      have hq : '"' ∈ front ++ x.quoted ++ back := by simp
      rw [ht] at hq
      exact absurd hq (by decide)
    · have ht : front ++ x.quoted ++ back = "print(\"a\")".toList :=
        congrArg Prod.fst (List.mem_singleton.1 hp)
      rw [ht, Literal.eq_takeWhile_of_count ht (by decide)]
      decide +kernel

/-- A parenthesis in a literal is taken for the one that closes a condition. -/
theorem parse_replaced_parenthesis :
    Mode.code.after "if (print(".toList = .code ∧
    (parse "if (print(\"a\")) { x = 1; }" ["x"]).isClean ∧
    ¬ (parse "if (print(\")\")) { x = 1; }" ["x"]).isClean := by
  decide +kernel

end Script

end FormulaScript
