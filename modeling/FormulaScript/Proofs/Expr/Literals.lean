import FormulaScript.Proofs.Expr.Strings
import FormulaScript.Proofs.Token.Literals

/-!
# Literals in expressions

With one string literal in place of another a text forms the same expression, but for the text of
one string and for locations.
-/

namespace FormulaScript

/-! ## Tokens -/

namespace Token

theorem shapes_beforeFinish (text : List Char) :
    (beforeFinish (scan text).1).map shape = (lexemes (beforeNul text)).map Lexeme.shape := by
  rw [← scan_beforeNul]
  exact shapes_scan (not_mem_beforeNul text)

theorem faultless_iff (text : List Char) :
    (scan text).2 = [] ↔ ∀ lexeme ∈ lexemes (beforeNul text), lexeme.problem = none := by
  rw [← scan_beforeNul]
  exact scan_faultless_iff (not_mem_beforeNul text)

variable {t u : Token} {ts us : List Token} {r : Location → String → String}

theorem strings_of_shape (h : u.shape = t.shape) : u.strings = t.strings := by
  rw [strings, strings, kind_eq_of_shape h, text_eq_of_shape h]

theorem kind_retext (t : Token) : (t.retext r).kind = t.kind := by
  unfold retext
  split <;> simp_all

theorem retext_eq_self (h : r t.location t.text = t.text) : t.retext r = t := by
  unfold retext
  split
  · rw [h]
  · rfl

theorem NumbersReflexive.retext (h : NumbersReflexive ts) :
    NumbersReflexive (ts.map (Token.retext r)) := by
  refine List.forall_mem_map.2 fun t ht value hk => ?_
  rw [kind_retext] at hk
  exact h t ht value hk

theorem NumbersReflexive.of_shape (h : NumbersReflexive ts) (hs : us.map shape = ts.map shape) :
    NumbersReflexive us := by
  intro u hu value hk
  obtain ⟨t, ht, hts⟩ := List.mem_map.1 (hs ▸ List.mem_map_of_mem hu)
  exact h t ht value ((kind_eq_of_shape hts).trans hk)

/-- The token, with no text if it is a string. -/
def erase (token : Token) : Token := token.retext fun _ _ => ""

theorem shape_erase (h : u.shape = t.shape) : u.erase.shape = t.erase.shape := by
  have hk := kind_eq_of_shape h
  by_cases hs : t.kind = .string
  · rw [erase, erase, retext_of_string hs, retext_of_string (hk.trans hs)]
    exact congrArg (·, "") hk
  · rw [erase, erase, retext_of_kind hs, retext_of_kind (hk ▸ hs), h]

theorem map_erase (h : us.map shape = ts.map shape) :
    (us.map erase).map shape = (ts.map erase).map shape := by
  rw [List.map_map, List.map_map, List.map_eq_flatMap, List.map_eq_flatMap]
  exact flatMap_of_shape (fun h => congrArg ([·]) (shape_erase h)) h

/-- The token at another place. -/
def place (location : Location) (token : Token) : Token := { token with location }

theorem map_place (location : Location) (ts : List Token) :
    (ts.map (place location)).map shape = ts.map shape := by
  rw [List.map_map]
  rfl

end Token

namespace Expr

open Token (shape)

/-- The expression with no texts in its strings. -/
def erase (e : Expr) : Expr := e.retext fun _ _ => ""

/-- The tokens with another string in place of one form an expression too. -/
theorem Derives.exists_swapped {a b a' b' : List Token} {q q' : Token}
    (h : Derives names ℓ (a ++ q :: b) e) (hn : Token.NumbersReflexive (a ++ q :: b))
    (ha : a'.map shape = a.map shape) (hb : b'.map shape = b.map shape) (hq : q.kind = .string)
    (hq' : q'.kind = .string) : ∃ e', Derives names ℓ (a' ++ q' :: b') e' := by
  -- the tokens at places that tell the string from all others
  let us := a.map (Token.place ⟨0, 0⟩) ++ q.place ⟨0, 1⟩ :: b.map (Token.place ⟨0, 0⟩)
  have hus : us.map shape = (a ++ q :: b).map shape := by
    rw [List.map_append, List.map_cons, Token.map_place, Token.map_place, List.map_append,
      List.map_cons]
    rfl
  obtain ⟨e₁, h₁, -⟩ := h.reshape hn hus
  let r (location : Location) (text : String) : String :=
    if location = ⟨0, 1⟩ then q'.text else text
  have hother (ts : List Token) : (ts.map (Token.place ⟨0, 0⟩)).map (Token.retext r) =
      ts.map (Token.place ⟨0, 0⟩) := by
    rw [List.map_map]
    exact List.map_congr_left fun t _ => Token.retext_eq_self rfl
  have hr : us.map (Token.retext r) = a.map (Token.place ⟨0, 0⟩) ++
      { q with text := q'.text, location := ⟨0, 1⟩ } :: b.map (Token.place ⟨0, 0⟩) := by
    have hplaced : (q.place ⟨0, 1⟩).kind = .string := hq
    rw [List.map_append, List.map_cons, hother, hother, Token.retext_of_string hplaced]
    rfl
  have hs : (a' ++ q' :: b').map shape = (us.map (Token.retext r)).map shape := by
    rw [hr, List.map_append, List.map_append, List.map_cons, List.map_cons, Token.map_place,
      Token.map_place, ha, hb]
    simp [shape, hq, hq']
  obtain ⟨e', h', -⟩ := (h₁.retext r).reshape (hn.of_shape hus).retext hs
  exact ⟨e', h'⟩

theorem Derives.same_erase (h : Derives names ℓ ts e) (h' : Derives names ℓ us e')
    (hn : Token.NumbersReflexive ts)
    (hs : (us.map Token.erase).map shape = (ts.map Token.erase).map shape) :
    e'.erase.same e.erase := by
  obtain ⟨e'', he, hsame⟩ := (h.retext fun _ _ => "").reshape hn.retext hs
  rwa [he.unique (h'.retext fun _ _ => "")] at hsame

/-- The texts of two trees differ in one string, and nothing else of the trees does but for
locations. -/
structure SwapsString (s t : String) (n : Nat) (e e' : Expr) : Prop where
  same : e'.erase.same e.erase
  strings : Swaps [s] [t] n e.strings e'.strings

variable {text text' : List Char} {x y : Literal}

theorem Forms.refl (h : Forms names text e) (s t : String) : SwapsString s t 0 e e where
  same := h.derives.same_erase h.derives (numbersReflexive_scan text) rfl
  strings := .refl _

/-- A text with the lexeme of one literal in place of that of another forms an expression too. -/
theorem Forms.exists_swapped {ls ls' : List Token.Lexeme} (h : Forms names text e)
    (hx : Token.lexemes (Token.beforeNul text) = ls ++ .ofLiteral x :: ls')
    (hy : Token.lexemes (Token.beforeNul text') = ls ++ .ofLiteral y :: ls') :
    ∃ e', Forms names text' e' ∧
      SwapsString (String.ofList x.text) (String.ofList y.text) 1 e e' := by
  have hts := Token.shapes_beforeFinish text
  have hus := Token.shapes_beforeFinish text'
  rw [hx, List.map_append, List.map_cons] at hts
  rw [hy, List.map_append, List.map_cons] at hus
  obtain ⟨a, ts, hts, ha, hts'⟩ := List.map_eq_append_iff.1 hts
  obtain ⟨q, b, rfl, hq, hb⟩ := List.map_eq_cons_iff.1 hts'
  obtain ⟨a', us, hus, ha', hus'⟩ := List.map_eq_append_iff.1 hus
  obtain ⟨q', b', rfl, hq', hb'⟩ := List.map_eq_cons_iff.1 hus'
  have hk : q.kind = .string := congrArg Prod.fst hq
  have hk' : q'.kind = .string := congrArg Prod.fst hq'
  have hn := hts ▸ numbersReflexive_scan text
  have hd := hts ▸ h.derives
  obtain ⟨e', he⟩ := hd.exists_swapped hn (ha'.trans ha.symm) (hb'.trans hb.symm) hk hk'
  have hfaultless : (Token.scan text').2 = [] := by
    have hf := h.faultless
    rw [Token.faultless_iff, hx] at hf
    rw [Token.faultless_iff, hy]
    obtain ⟨hls, hls'⟩ := List.forall_mem_append.1 hf
    have hls' := (List.forall_mem_cons.1 hls').2
    exact List.forall_mem_append.2 ⟨hls, List.forall_mem_cons.2 ⟨rfl, hls'⟩⟩
  have ht : q.text = String.ofList x.text := congrArg Prod.snd hq
  have ht' : q'.text = String.ofList y.text := congrArg Prod.snd hq'
  refine ⟨e', ⟨hfaultless, hus ▸ he⟩, hd.same_erase he hn ?_, ?_⟩
  · have hqs : q'.erase.shape = q.erase.shape := by
      rw [Token.erase, Token.erase, Token.retext_of_string hk, Token.retext_of_string hk']
      exact congrArg (·, "") (hk'.trans hk.symm)
    rw [List.map_append, List.map_append, List.map_append, List.map_append, List.map_cons,
      List.map_cons, List.map_cons, List.map_cons, Token.map_erase (ha'.trans ha.symm),
      Token.map_erase (hb'.trans hb.symm), hqs]
  · rw [← hd.strings, ← he.strings, List.flatMap_append, List.flatMap_append, List.flatMap_cons,
      List.flatMap_cons, Token.flatMap_of_shape Token.strings_of_shape (ha'.trans ha.symm),
      Token.flatMap_of_shape Token.strings_of_shape (hb'.trans hb.symm),
      Token.strings_of_string hk, Token.strings_of_string hk', ht, ht']
    have hs : Swaps [String.ofList x.text] [String.ofList y.text] 1
        ([String.ofList x.text] ++ b.flatMap Token.strings)
        ([String.ofList y.text] ++ b.flatMap Token.strings) := .swap (.refl _)
    rw [← Nat.zero_add 1]
    exact (Swaps.refl (a.flatMap Token.strings)).append hs

end Expr

end FormulaScript
