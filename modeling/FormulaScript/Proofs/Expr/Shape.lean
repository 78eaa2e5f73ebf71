import FormulaScript.Proofs.Expr.Recognition
import FormulaScript.Proofs.Number.Literal
import FormulaScript.Proofs.Token.Lexemes

/-!
# Expressions at other places

Whether tokens form an expression does not depend on where they stand: tokens of the same kinds and
texts form an expression that differs in nothing but its locations.
-/

namespace FormulaScript

/-! ## Tokens of one shape -/

namespace Token

variable {t u : Token}

theorem kind_eq_of_shape (h : u.shape = t.shape) : u.kind = t.kind := congrArg Prod.fst h

theorem text_eq_of_shape (h : u.shape = t.shape) : u.text = t.text := congrArg Prod.snd h

theorem isDelimiter_of_shape (h : u.shape = t.shape) (hd : t.isDelimiter symbol) :
    u.isDelimiter symbol := by
  obtain ⟨hk, ht⟩ := isDelimiter_iff.1 hd
  exact isDelimiter_iff.2 ⟨(kind_eq_of_shape h).trans hk, (text_eq_of_shape h).trans ht⟩

theorem flatMap_of_shape {f : Token → List β} {ts us : List Token}
    (hf : ∀ {t u : Token}, u.shape = t.shape → f u = f t) (h : us.map shape = ts.map shape) :
    us.flatMap f = ts.flatMap f := by
  induction ts generalizing us with
  | nil => rw [List.map_eq_nil_iff.1 h]
  | cons t ts ih =>
    obtain ⟨u, us, rfl, hu, h⟩ := List.map_eq_cons_iff.1 h
    rw [List.flatMap_cons, List.flatMap_cons, hf hu, ih h]

/-- Every number among the tokens equals itself. -/
def NumbersReflexive (tokens : List Token) : Prop :=
  ∀ t ∈ tokens, ∀ value, t.kind = .number (some value) → value == value

section

variable {ts us : List Token} {opening closing : Token}

theorem NumbersReflexive.subset (h : NumbersReflexive ts) (hs : us ⊆ ts) : NumbersReflexive us :=
  fun t ht => h t (hs ht)

theorem NumbersReflexive.tail (h : NumbersReflexive (t :: ts)) : NumbersReflexive ts :=
  h.subset (List.subset_cons_self _ _)

theorem NumbersReflexive.left (h : NumbersReflexive (ts ++ us)) : NumbersReflexive ts :=
  h.subset (List.subset_append_left _ _)

theorem NumbersReflexive.right (h : NumbersReflexive (ts ++ t :: us)) : NumbersReflexive us :=
  h.subset (List.subset_append_of_subset_right _ (List.subset_cons_self _ _))

theorem NumbersReflexive.inner (h : NumbersReflexive (opening :: ts ++ [closing])) :
    NumbersReflexive ts :=
  h.left.tail

theorem exists_between {ts' : List Token}
    (hs : us.map shape = (ts ++ t :: ts').map shape) :
    ∃ us₁ u us₂, us = us₁ ++ u :: us₂ ∧ us₁.map shape = ts.map shape ∧ u.shape = t.shape ∧
      us₂.map shape = ts'.map shape := by
  rw [List.map_append, List.map_cons] at hs
  obtain ⟨us₁, rest, rfl, h₁, hs⟩ := List.map_eq_append_iff.1 hs
  obtain ⟨u, us₂, rfl, hu, h₂⟩ := List.map_eq_cons_iff.1 hs
  exact ⟨us₁, u, us₂, rfl, h₁, hu, h₂⟩

theorem exists_within (hs : us.map shape = (opening :: ts ++ [closing]).map shape) :
    ∃ opening' us' closing', us = opening' :: us' ++ [closing'] ∧
      opening'.shape = opening.shape ∧ us'.map shape = ts.map shape ∧
      closing'.shape = closing.shape := by
  obtain ⟨us₁, closing', us₂, rfl, h₁, hc, h₂⟩ := exists_between hs
  obtain ⟨opening', us', rfl, ho, h⟩ := List.map_eq_cons_iff.1 h₁
  cases List.map_eq_nil_iff.1 h₂
  exact ⟨opening', us', closing', rfl, ho, h, hc⟩

end

theorem numbersReflexive_scanFrom (position : Nat) (location : Location) (source : List Char) :
    NumbersReflexive (scanFrom position location source).1 := by
  refine scanFrom_induction (motive := fun _ scanned => NumbersReflexive scanned.1) ?_ ?_ position
    location source
  · intro source position location _ t ht value hk
    cases List.mem_singleton.1 ht
    cases hk
  · intro source first rest position location tail _ ih t ht value hk
    rcases List.mem_cons.1 ht with rfl | ht
    · have hk : (Lexeme.read first rest).kind = .number (some value) := hk
      revert hk
      refine Lexeme.read_cases first rest ?_ ?_ ?_ ?_ ?_ ?_ ?_ ?_
      · simp
      · simp
      · simp
      · simp
      · intro _ _ _ value? hv hk
        cases hk
        exact Number.beq_self_of_decode? hv
      · simp
      · simp
      · simp
    · exact ih t ht value hk

end Token

namespace Expr

open Token (shape exists_between exists_within)

/-! ## Trees that are alike -/

theorem isVariable_of_same {e e' : Expr} (h : e'.same e) : e'.isVariable = e.isVariable := by
  cases e' <;> cases e <;> simp_all [same, isVariable]

theorem isAssignable_of_same {e e' : Expr} (h : e'.same e) :
    e'.isAssignable = e.isAssignable := by
  fun_induction isAssignable e' generalizing e with
  | case1 => cases e <;> simp_all [same, isAssignable]
  | case2 _ _ _ ih =>
    cases e with
    | assign =>
      have ih := ih (Bool.and_eq_true_iff.1 h).2
      exact ih
    | _ => cases h
  | case3 _ _ _ _ ih =>
    cases e with
    | update =>
      have ih := ih (Bool.and_eq_true_iff.1 h).2
      exact ih
    | _ => cases h
  | case4 _ _ _ ih =>
    cases e with
    | increment =>
      have ih := ih (Bool.and_eq_true_iff.1 h).2
      exact ih
    | _ => cases h
  | case5 e' hs ha hu hi =>
    cases e' with
    | slot => exact absurd rfl (hs _ _ _)
    | assign => exact absurd rfl (ha _ _ _)
    | update => exact absurd rfl (hu _ _ _ _)
    | increment => exact absurd rfl (hi _ _ _)
    | _ => cases e <;> first | rfl | cases h

theorem length_of_sameAll {es es' : List Expr} (h : sameAll es' es) : es'.length = es.length := by
  induction es' generalizing es with
  | nil =>
    cases es with
    | nil => rfl
    | cons => cases h
  | cons e' es' ih =>
    cases es with
    | nil => cases h
    | cons e es =>
      simp only [sameAll, Bool.and_eq_true] at h
      exact congrArg (· + 1) (ih h.2)

/-- Calls of one function with arguments that are alike are alike. -/
theorem CallNode.exists_same {es es' : List Expr} {l : Location} (h : CallNode function es l e)
    (hs : sameAll es' es) (l' : Location) : ∃ e', CallNode function es' l' e' ∧ e'.same e := by
  cases h with
  | unary =>
    obtain ⟨a, rfl⟩ := List.length_eq_one_iff.1 (length_of_sameAll hs)
    exact ⟨_, .unary, by simpa [same, sameAll] using hs⟩
  | binary =>
    obtain ⟨a, b, rfl⟩ := List.length_eq_two.1 (length_of_sameAll hs)
    exact ⟨_, .binary, by simpa [same, sameAll] using hs⟩
  | conditional =>
    obtain ⟨a, b, c, rfl⟩ := List.length_eq_three.1 (length_of_sameAll hs)
    exact ⟨_, .conditional, by simpa [same, sameAll, Bool.and_assoc] using hs⟩

/-! ## Derivations -/

theorem Listed.subset (h : Listed parts ts) : ∀ part ∈ parts, part ⊆ ts := by
  induction h with
  | last => simp
  | cons _ _ ih =>
    refine List.forall_mem_cons.2 ⟨List.subset_append_left _ _, fun part hp => ?_⟩
    exact List.subset_append_of_subset_right _ (List.subset_cons_of_subset _ (ih part hp))

theorem Listed.reshape (h : Listed parts ts) (hs : us.map shape = ts.map shape) :
    ∃ parts', Listed parts' us ∧ parts'.map (·.map shape) = parts.map (·.map shape) := by
  induction h generalizing us with
  | last => exact ⟨[us], .last, by simpa using hs⟩
  | cons hc _ ih =>
    rw [List.map_append, List.map_cons] at hs
    obtain ⟨part, rest, rfl, hp, hs⟩ := List.map_eq_append_iff.1 hs
    obtain ⟨comma, us, rfl, hcs, hs⟩ := List.map_eq_cons_iff.1 hs
    obtain ⟨parts', hl, hps⟩ := ih hs
    refine ⟨part :: parts', .cons (Token.isDelimiter_of_shape hcs hc) hl, ?_⟩
    rw [List.map_cons, List.map_cons, hp, hps]

theorem exists_arguments {ℓ : Level} {arguments : List (List Token × Expr)}
    (h : ∀ argument ∈ arguments, ∀ us, us.map shape = argument.1.map shape →
      ∃ e, Derives names ℓ us e ∧ e.same argument.2)
    (hs : parts.map (·.map shape) = (arguments.map (·.1)).map (·.map shape)) :
    ∃ arguments' : List (List Token × Expr), arguments'.map (·.1) = parts ∧
      (∀ argument ∈ arguments', Derives names ℓ argument.1 argument.2) ∧
      sameAll (arguments'.map (·.2)) (arguments.map (·.2)) := by
  induction arguments generalizing parts with
  | nil =>
    cases List.map_eq_nil_iff.1 hs
    exact ⟨[], rfl, by simp, rfl⟩
  | cons argument arguments ih =>
    obtain ⟨part, parts, rfl, hp, hs⟩ := List.map_eq_cons_iff.1 hs
    obtain ⟨ha, h⟩ := List.forall_mem_cons.1 h
    obtain ⟨e, he, hes⟩ := ha part hp
    obtain ⟨arguments', rfl, hd, hss⟩ := ih h hs
    refine ⟨(part, e) :: arguments', rfl, List.forall_mem_cons.2 ⟨he, hd⟩, ?_⟩
    exact Bool.and_eq_true_iff.2 ⟨hes, hss⟩

theorem Listed.exists_arguments {ℓ : Level} {arguments : List (List Token × Expr)}
    (hl : Listed (arguments.map (·.1)) ts) (hs : us.map shape = ts.map shape)
    (hn : Token.NumbersReflexive ts)
    (h : ∀ argument ∈ arguments, ∀ {us}, Token.NumbersReflexive argument.1 →
      us.map shape = argument.1.map shape → ∃ e, Derives names ℓ us e ∧ e.same argument.2) :
    ∃ arguments' : List (List Token × Expr), Listed (arguments'.map (·.1)) us ∧
      (∀ argument ∈ arguments', Derives names ℓ argument.1 argument.2) ∧
      sameAll (arguments'.map (·.2)) (arguments.map (·.2)) := by
  obtain ⟨parts, hp, hps⟩ := hl.reshape hs
  have hpart {argument} (ha : argument ∈ arguments) : Token.NumbersReflexive argument.1 :=
    hn.subset (hl.subset _ (List.mem_map_of_mem ha))
  obtain ⟨arguments', rfl, hd, hss⟩ :=
    Expr.exists_arguments (fun argument ha us hus => h argument ha (hpart ha) hus) hps
  exact ⟨arguments', hp, hd, hss⟩

theorem pi_beq_self : pi == pi := by decide +kernel

/-- Tokens of the same shapes form the same expression but for its locations. -/
theorem Derives.reshape (h : Derives names ℓ ts e) (hn : Token.NumbersReflexive ts)
    (hs : us.map shape = ts.map shape) : ∃ e', Derives names ℓ us e' ∧ e'.same e := by
  induction h generalizing us with
  | tighter hℓ _ ih =>
    obtain ⟨e', he, hes⟩ := ih hn hs
    exact ⟨e', .tighter hℓ he, hes⟩
  | string hk =>
    obtain ⟨u, rfl, hu⟩ := List.map_eq_singleton_iff.1 hs
    refine ⟨_, .string ((Token.kind_eq_of_shape hu).trans hk), ?_⟩
    simp [same, Token.text_eq_of_shape hu]
  | assign _ ht hd _ ih₁ ih₂ =>
    obtain ⟨us₁, u, us₂, rfl, h₁, hu, h₂⟩ := exists_between hs
    obtain ⟨target, ht', hts⟩ := ih₁ hn.left h₁
    obtain ⟨value, hv', hvs⟩ := ih₂ hn.right h₂
    refine ⟨_, .assign ht' ((isAssignable_of_same hts).trans ht)
      (Token.isDelimiter_of_shape hu hd) hv', ?_⟩
    simp [same, hts, hvs]
  | update _ ht hop hd _ ih₁ ih₂ =>
    obtain ⟨us₁, u, us₂, rfl, h₁, hu, h₂⟩ := exists_between hs
    obtain ⟨target, ht', hts⟩ := ih₁ hn.left h₁
    obtain ⟨value, hv', hvs⟩ := ih₂ hn.right h₂
    refine ⟨_, .update ht' ((isAssignable_of_same hts).trans ht) hop
      (Token.isDelimiter_of_shape hu hd) hv', ?_⟩
    simp [same, hts, hvs]
  | binary _ hop hd hℓ _ ih₁ ih₂ =>
    obtain ⟨us₁, u, us₂, rfl, h₁, hu, h₂⟩ := exists_between hs
    obtain ⟨left, hl', hls⟩ := ih₁ hn.left h₁
    obtain ⟨right, hr', hrs⟩ := ih₂ hn.right h₂
    refine ⟨_, .binary hl' hop (Token.isDelimiter_of_shape hu hd) hℓ hr', ?_⟩
    simp [same, hls, hrs]
  | plus hd _ ih =>
    obtain ⟨u, us, rfl, hu, hs⟩ := List.map_eq_cons_iff.1 hs
    obtain ⟨e', he, hes⟩ := ih hn.tail hs
    exact ⟨e', .plus (Token.isDelimiter_of_shape hu hd) he, hes⟩
  | minus hd _ ih =>
    obtain ⟨u, us, rfl, hu, hs⟩ := List.map_eq_cons_iff.1 hs
    obtain ⟨e', he, hes⟩ := ih hn.tail hs
    refine ⟨_, .minus (Token.isDelimiter_of_shape hu hd) he, ?_⟩
    simp [same, hes]
  | increment hd _ hv ih =>
    obtain ⟨u, us, rfl, hu, hs⟩ := List.map_eq_cons_iff.1 hs
    obtain ⟨e', he, hes⟩ := ih hn.tail hs
    refine ⟨_, .increment (Token.isDelimiter_of_shape hu hd) he
      ((isVariable_of_same hes).trans hv), ?_⟩
    simp [same, hes, Number.one_beq_self]
  | decrement hd _ hv ih =>
    obtain ⟨u, us, rfl, hu, hs⟩ := List.map_eq_cons_iff.1 hs
    obtain ⟨e', he, hes⟩ := ih hn.tail hs
    refine ⟨_, .decrement (Token.isDelimiter_of_shape hu hd) he
      ((isVariable_of_same hes).trans hv), ?_⟩
    simp [same, hes, Number.minus_one_beq_self]
  | group ho _ hc ih =>
    obtain ⟨opening', us', closing', rfl, ho', hs, hc'⟩ := exists_within hs
    obtain ⟨e', he, hes⟩ := ih hn.inner hs
    exact ⟨e', .group (Token.isDelimiter_of_shape ho' ho) he
      (Token.isDelimiter_of_shape hc' hc), hes⟩
  | number hk =>
    obtain ⟨u, rfl, hu⟩ := List.map_eq_singleton_iff.1 hs
    refine ⟨_, .number ((Token.kind_eq_of_shape hu).trans hk), ?_⟩
    exact hn _ List.mem_cons_self _ hk
  | pi hk ht =>
    obtain ⟨u, rfl, hu⟩ := List.map_eq_singleton_iff.1 hs
    refine ⟨_, .pi ((Token.kind_eq_of_shape hu).trans hk)
      ((Token.text_eq_of_shape hu).trans ht), ?_⟩
    exact pi_beq_self
  | slot hk ht hi =>
    obtain ⟨u, rfl, hu⟩ := List.map_eq_singleton_iff.1 hs
    have hut := Token.text_eq_of_shape hu
    refine ⟨_, .slot ((Token.kind_eq_of_shape hu).trans hk) (hut ▸ ht) (hut ▸ hi), ?_⟩
    simp [same, hut]
  | call hk hf ho _ hl' hc he ih =>
    obtain ⟨u, us, rfl, hu, hs⟩ := List.map_eq_cons_iff.1 hs
    obtain ⟨opening', us', closing', rfl, ho', hs, hc'⟩ := exists_within hs
    obtain ⟨arguments', hp, hd, hss⟩ := hl'.exists_arguments hs hn.tail.inner ih
    obtain ⟨e', he', hes⟩ := he.exists_same hss u.location
    exact ⟨e', .call ((Token.kind_eq_of_shape hu).trans hk)
      ((Token.text_eq_of_shape hu).symm ▸ hf) (Token.isDelimiter_of_shape ho' ho) hd hp
      (Token.isDelimiter_of_shape hc' hc) he', hes⟩
  | print hk ht ho _ hl' hc ih =>
    obtain ⟨u, us, rfl, hu, hs⟩ := List.map_eq_cons_iff.1 hs
    obtain ⟨opening', us', closing', rfl, ho', hs, hc'⟩ := exists_within hs
    obtain ⟨arguments', hp, hd, hss⟩ := hl'.exists_arguments hs hn.tail.inner ih
    exact ⟨_, .print ((Token.kind_eq_of_shape hu).trans hk)
      ((Token.text_eq_of_shape hu).trans ht) (Token.isDelimiter_of_shape ho' ho) hd hp
      (Token.isDelimiter_of_shape hc' hc), hss⟩

/-! ## Texts -/

theorem numbersReflexive_scan (text : List Char) :
    Token.NumbersReflexive (Token.beforeFinish (Token.scan text).1) :=
  (Token.numbersReflexive_scanFrom 0 {} (Token.beforeNul text)).subset
    (List.takeWhile_sublist _).subset

/-- Texts with the same lexemes form the same expression but for its locations. -/
theorem Forms.of_lexemes (h : Forms names text e) (hn : '\x00' ∉ text) (hn' : '\x00' ∉ text')
    (hl : Token.lexemes text' = Token.lexemes text) :
    ∃ e', Forms names text' e' ∧ e'.same e := by
  have hs : (Token.beforeFinish (Token.scan text').1).map shape =
      (Token.beforeFinish (Token.scan text).1).map shape := by
    rw [Token.shapes_scan hn', Token.shapes_scan hn, hl]
  obtain ⟨e', he, hes⟩ := h.derives.reshape (numbersReflexive_scan text) hs
  have hf : (Token.scan text').2 = [] := by
    rw [Token.scan_faultless_iff hn', hl, ← Token.scan_faultless_iff hn, h.faultless]
  exact ⟨e', ⟨hf, he⟩, hes⟩

end Expr

end FormulaScript
