import FormulaScript.Proofs.Expr.Parentheses

/-!
# Commas between arguments

Inside an expression every comma stands in parentheses. So the tokens of a call in balanced
parentheses are those of its arguments, cut at the commas between them.
-/

namespace FormulaScript.Expr

open Token (parentheses)

variable {ts us before after : List Token} {t comma : Token}

/-! ## Levels of commas -/

theorem exists_append_of_append_singleton {last : Token}
    (h : before ++ t :: after = ts ++ [last]) :
    ∃ rest, ts = before ++ rest := by
  rcases List.eq_nil_or_concat after with rfl | ⟨rest, x, rfl⟩
  · exact ⟨[], by rw [List.append_nil, (List.append_inj' h rfl).1]⟩
  · rw [List.concat_eq_append, ← List.cons_append, ← List.append_assoc] at h
    exact ⟨t :: rest, (List.append_inj' h rfl).1.symm⟩

/-- Between a pair of parentheses at least one is open. -/
theorem openAfter_within {opening closing : Token} (ho : opening.isDelimiter "(")
    (hb : Balanced (ts.flatMap parentheses)) (hcomma : comma.isDelimiter ",")
    (hs : opening :: ts ++ [closing] = before ++ comma :: after) :
    ∃ level, openAfter 0 (before.flatMap parentheses) = some (level + 1) := by
  cases before with
  | nil =>
    obtain ⟨rfl, -⟩ := List.cons.inj hs
    exact absurd (Token.isDelimiter_unique ho hcomma) (by decide)
  | cons o before =>
    simp only [List.cons_append, List.cons.injEq] at hs
    obtain ⟨rfl, hs'⟩ := hs
    obtain ⟨rest, rfl⟩ := exists_append_of_append_singleton hs'.symm
    rw [List.flatMap_append] at hb
    obtain ⟨level, hl⟩ := exists_openAfter_of_balanced hb
    refine ⟨level, ?_⟩
    rw [List.flatMap_cons, Token.parentheses_of_opening ho]
    exact openAfter_add hl 1

theorem openAfter_between (hts : Balanced (ts.flatMap parentheses)) (ht : t.parentheses = [])
    (hne : ¬ t.isDelimiter ",")
    (ihl : ∀ before after, ts = before ++ comma :: after →
      ∃ level, openAfter 0 (before.flatMap parentheses) = some (level + 1))
    (ihr : ∀ before after, us = before ++ comma :: after →
      ∃ level, openAfter 0 (before.flatMap parentheses) = some (level + 1))
    (hcomma : comma.isDelimiter ",") (hs : ts ++ t :: us = before ++ comma :: after) :
    ∃ level, openAfter 0 (before.flatMap parentheses) = some (level + 1) := by
  have hct : comma ≠ t := by
    rintro rfl
    exact hne hcomma
  rcases List.append_eq_append_iff.1 hs with ⟨mid, rfl, hm⟩ | ⟨mid, rfl, hm⟩
  · cases mid with
    | nil => exact absurd (List.cons.inj hm).1.symm hct
    | cons x mid =>
      obtain ⟨rfl, rfl⟩ := List.cons.inj hm
      obtain ⟨level, hl⟩ := ihr mid after rfl
      refine ⟨level, ?_⟩
      rw [List.flatMap_append, List.flatMap_cons, ht, List.nil_append, openAfter_append, hts 0]
      exact hl
  · cases mid with
    | nil => exact absurd (List.cons.inj hm).1 hct
    | cons x mid =>
      obtain ⟨rfl, rfl⟩ := List.cons.inj hm
      exact ihl before mid rfl

theorem comma_not_mem_symbols (ℓ : Level) : "," ∉ ℓ.symbols := by
  cases ℓ <;> decide

/-- In front of a comma of an expression a parenthesis is open. -/
theorem Derives.openAfter_comma (h : Derives names ℓ ts e) (hcomma : comma.isDelimiter ",")
    (hs : ts = before ++ comma :: after) :
    ∃ level, openAfter 0 (before.flatMap parentheses) = some (level + 1) := by
  have hk : comma.kind = .delimiter := (Token.isDelimiter_iff.1 hcomma).1
  have single {t : Token} (ht : t.kind ≠ .delimiter) {before after : List Token} :
      [t] ≠ before ++ comma :: after := fun hs => by
    have hm : comma ∈ [t] := hs ▸ List.mem_append_right _ List.mem_cons_self
    exact ht (List.mem_singleton.1 hm ▸ hk)
  have other {t : Token} {symbol : String} (h : t.isDelimiter symbol) (hne : symbol ≠ ",") :
      ¬ t.isDelimiter "," := fun hd => hne (Token.isDelimiter_unique h hd)
  have skip {t : Token} {ts before after : List Token} (ht : ¬ t.isDelimiter ",")
      (hs : t :: ts = before ++ comma :: after) :
      ∃ mid, before = t :: mid ∧ ts = mid ++ comma :: after := by
    cases before with
    | nil => exact absurd ((List.cons.inj hs).1 ▸ hcomma) ht
    | cons x mid => exact ⟨mid, by rw [(List.cons.inj hs).1], (List.cons.inj hs).2⟩
  induction h generalizing before after with
  | tighter _ _ ih => exact ih hs
  | string ht | number ht | pi ht | slot ht => exact absurd hs (single (by simp [ht]))
  | assign hl _ hd _ ih₁ ih₂ =>
    exact openAfter_between hl.balanced (parentheses_of_symbol (ℓ := .assignment) hd (by decide))
      (other hd (by decide)) (fun _ _ => ih₁) (fun _ _ => ih₂) hcomma hs
  | update hl _ hop hd _ ih₁ ih₂ =>
    have hm := List.mem_cons_of_mem "=" (List.mem_map_of_mem (f := (·.1)) hop)
    have hne := comma_not_mem_symbols .assignment
    exact openAfter_between hl.balanced (parentheses_of_symbol (ℓ := .assignment) hd hm)
      (other hd fun he => hne (he ▸ hm)) (fun _ _ => ih₁) (fun _ _ => ih₂) hcomma hs
  | @binary ℓ _ _ _ _ _ _ _ _ hl hop hd _ _ ih₁ ih₂ =>
    have hm := Level.mem_symbols_of_operator hop
    have hne := comma_not_mem_symbols ℓ
    exact openAfter_between hl.balanced (parentheses_of_symbol hd hm)
      (other hd fun he => hne (he ▸ hm)) (fun _ _ => ih₁) (fun _ _ => ih₂) hcomma hs
  | plus hd _ ih | minus hd _ ih | increment hd _ _ ih | decrement hd _ _ ih =>
    obtain ⟨mid, rfl, hs'⟩ := skip (other hd (by decide)) hs
    obtain ⟨level, hl⟩ := ih hs'
    refine ⟨level, ?_⟩
    rw [List.flatMap_cons, Token.parentheses_of_delimiter hd (by decide) (by decide)]
    exact hl
  | group ho hts hc =>
    exact openAfter_within ho hts.balanced hcomma hs
  | call ht _ ho hts hl hc _ | print ht _ ho hts hl hc =>
    have hn : ¬ Token.isDelimiter _ "," := fun hd => by
      rw [(Token.isDelimiter_iff.1 hd).1] at ht
      cases ht
    obtain ⟨mid, rfl, hs'⟩ := skip hn hs
    have hb := hl.balanced (List.forall_mem_map.2 fun argument ha => (hts argument ha).balanced)
    rw [List.flatMap_cons, Token.parentheses_of_kind (by simp [ht])]
    exact openAfter_within ho hb hcomma hs'

/-! ## Arguments -/

theorem Listed.eq_of_singleton (h : Listed [part] ts) : ts = part := by
  cases h with
  | last => rfl
  | cons _ hl => cases hl

theorem Listed.exists_comma (h : Listed (part :: next :: parts) ts) :
    ∃ comma us, ts = part ++ comma :: us ∧ comma.isDelimiter "," ∧ Listed (next :: parts) us := by
  cases h with
  | cons hc hl => exact ⟨_, _, rfl, hc, hl⟩

/-- At the last comma in front of a single token another list of parts is cut at the same place. -/
theorem Derives.eq_of_last_comma {x y : List Token} {comma comma' last : Token}
    (h : Derives names ℓ ts e) (hc : comma.isDelimiter ",") (hc' : comma'.isDelimiter ",")
    (hl : last.kind ≠ .delimiter) (hs : x ++ comma :: [last] = y ++ comma' :: ts) :
    y = x ∧ ts = [last] := by
  have hlast : ¬ last.isDelimiter "," := fun hd => hl (Token.isDelimiter_iff.1 hd).1
  rcases List.append_eq_append_iff.1 hs with ⟨mid, rfl, hm⟩ | ⟨mid, rfl, hm⟩
  · match mid, hm with
    | [], hm =>
      obtain ⟨-, rfl⟩ := List.cons.inj hm
      exact ⟨List.append_nil x, rfl⟩
    | [_], hm =>
      obtain ⟨-, hm⟩ := List.cons.inj hm
      exact absurd ((List.cons.inj hm).1 ▸ hc') hlast
    | _ :: _ :: mid, hm =>
      have hlen := congrArg List.length hm
      simp at hlen
  · cases mid with
    | nil =>
      obtain ⟨-, rfl⟩ := List.cons.inj hm
      exact ⟨(List.append_nil y).symm, rfl⟩
    | cons z mid =>
      -- the comma would stand in the last part, with no parenthesis open
      rw [List.cons_append, List.cons.injEq] at hm
      obtain ⟨rfl, rfl⟩ := hm
      obtain ⟨level, ho⟩ := h.openAfter_comma hc rfl
      have hb := h.balanced 0
      rw [List.flatMap_append, List.flatMap_cons, List.flatMap_singleton,
        Token.parentheses_of_delimiter hc (by decide) (by decide), Token.parentheses_of_kind hl,
        List.append_nil, List.append_nil, ho] at hb
      cases hb

/-! ## Calls -/

theorem Derives.kind_ne_function (h : Derives names ℓ ts e) (hs : ts = [t]) :
    t.kind ≠ .function := by
  have two {ts us : List Token} {x : Token} (hne : ts ≠ []) : ts ++ x :: us ≠ [t] := fun hs => by
    have hl := congrArg List.length hs
    have hp := List.length_pos_of_ne_nil hne
    simp at hl
    omega
  induction h with
  | tighter _ _ ih => exact ih hs
  | string hk | number hk | pi hk | slot hk =>
    cases hs
    simp [hk]
  | assign hl | update hl | binary hl => exact absurd hs (two hl.ne_nil)
  | plus _ h | minus _ h | increment _ h | decrement _ h =>
    exact absurd (List.cons.inj hs).2 h.ne_nil
  | group | call | print => exact absurd hs (by simp)

/-- Tokens that are a name in front of balanced parentheses are a call, and nothing else. -/
theorem Derives.exists_call {name opening closing : Token} {ts us : List Token}
    (h : Derives names ℓ us e) (hs : us = name :: opening :: ts ++ [closing])
    (hk : name.kind = .function) (ho : opening.isDelimiter "(")
    (hb : Balanced (ts.flatMap parentheses)) (hp : name.text ≠ "print") :
    ∃ function, Builtin.ofName? name.text = some function ∧
      ∃ arguments : List (List Token × Expr),
        (∀ argument ∈ arguments, Derives names .assignment argument.1 argument.2) ∧
        Listed (arguments.map (·.1)) ts ∧
        CallNode function (arguments.map (·.2)) name.location e := by
  have between {names : List String} {ℓ : Level} {e : Expr} {us vs : List Token} {t : Token}
      (hl : Derives names ℓ us e) :
      us ++ t :: vs ≠ name :: opening :: ts ++ [closing] := fun hs => by
    match us, hl, hs with
    | [], hl, _ => exact hl.ne_nil rfl
    | [_], hl, hs =>
      simp only [List.cons_append, List.cons.injEq] at hs
      exact hl.kind_ne_function rfl (hs.1 ▸ hk)
    | x :: y :: mid, hl, hs =>
      -- the first part opens the parenthesis that only the last token closes
      simp only [List.cons_append, List.cons.injEq] at hs
      obtain ⟨rfl, rfl, hmid⟩ := hs
      obtain ⟨rest, rfl⟩ := exists_append_of_append_singleton hmid
      rw [List.flatMap_append] at hb
      obtain ⟨level, hm⟩ := exists_openAfter_of_balanced hb
      have hbx := hl.balanced 0
      rw [List.flatMap_cons, List.flatMap_cons, Token.parentheses_of_kind (by simp [hk]),
        Token.parentheses_of_opening ho] at hbx
      cases hbx.symm.trans (openAfter_add hm 1)
  have sign {t : Token} {symbol : String} {us : List Token} (hd : t.isDelimiter symbol) :
      t :: us ≠ name :: opening :: ts ++ [closing] := fun hs => by
    obtain ⟨rfl, -⟩ := List.cons.inj hs
    rw [(Token.isDelimiter_iff.1 hd).1] at hk
    cases hk
  induction h with
  | tighter _ _ ih => exact ih hs
  | string | number | pi | slot => exact absurd hs (by simp)
  | assign hl | update hl | binary hl => exact absurd hs (between hl)
  | plus hd | minus hd | increment hd | decrement hd => exact absurd hs (sign hd)
  | group hd => exact absurd hs (sign hd)
  | call _ hf _ hd hlist _ he =>
    obtain ⟨h, -⟩ := List.append_inj' hs rfl
    simp only [List.cons.injEq] at h
    obtain ⟨rfl, -, rfl⟩ := h
    exact ⟨_, hf, _, hd, hlist, he⟩
  | print _ ht =>
    obtain ⟨h, -⟩ := List.append_inj' hs rfl
    obtain ⟨rfl, -⟩ := List.cons.inj h
    exact absurd ht hp

end FormulaScript.Expr
