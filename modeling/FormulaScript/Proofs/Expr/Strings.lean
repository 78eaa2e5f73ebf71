import FormulaScript.Proofs.Expr.Shape

/-!
# Strings in expressions

The strings of an expression are those of its tokens, in order. Tokens go on to form an expression
when the texts of their strings are replaced, which replaces them in its tree and changes nothing
else there.
-/

namespace FormulaScript

/-! ## Tokens -/

namespace Token

/-- The text of the token, if it is a string. -/
def strings (token : Token) : List String :=
  match token.kind with
  | .string => [token.text]
  | _ => []

/-- The token, with its text replaced if it is a string. -/
def retext (r : Location → String → String) (token : Token) : Token :=
  match token.kind with
  | .string => { token with text := r token.location token.text }
  | _ => token

variable {t : Token} {r : Location → String → String}

theorem strings_of_string (h : t.kind = .string) : t.strings = [t.text] := by
  rw [strings, h]

theorem strings_of_kind (h : t.kind ≠ .string) : t.strings = [] := by
  unfold strings
  split
  · next hk => exact absurd hk h
  · rfl

theorem strings_of_delimiter (h : t.isDelimiter symbol) : t.strings = [] :=
  strings_of_kind (by simp [(isDelimiter_iff.1 h).1])

theorem retext_of_string (h : t.kind = .string) :
    t.retext r = { t with text := r t.location t.text } := by
  rw [retext, h]

theorem retext_of_kind (h : t.kind ≠ .string) : t.retext r = t := by
  unfold retext
  split
  · next hk => exact absurd hk h
  · rfl

theorem retext_of_delimiter (h : t.isDelimiter symbol) : t.retext r = t :=
  retext_of_kind (by simp [(isDelimiter_iff.1 h).1])

end Token

/-! ## Expressions -/

namespace Expr

mutual

/-- The texts of the strings in the expression, in order. -/
def strings : Expr → List String
  | literal .. | slot .. => []
  | string text _ => [text]
  | unary _ operand _ => operand.strings
  | binary _ left right _ => left.strings ++ right.strings
  | print arguments _ => stringsAll arguments
  | assign target value _ | update _ target value _ => target.strings ++ value.strings
  | increment _ target _ => target.strings
  | conditional test yes no _ => test.strings ++ yes.strings ++ no.strings

/-- The texts of the strings in some expressions, in order. -/
def stringsAll : List Expr → List String
  | [] => []
  | e :: es => e.strings ++ stringsAll es

end

mutual

/-- The expression with the texts of its strings replaced. -/
def retext (r : Location → String → String) : Expr → Expr
  | literal value l => literal value l
  | slot name index l => slot name index l
  | string text l => string (r l text) l
  | unary op operand l => unary op (operand.retext r) l
  | binary op left right l => binary op (left.retext r) (right.retext r) l
  | print arguments l => print (retextAll r arguments) l
  | assign target value l => assign (target.retext r) (value.retext r) l
  | update op target value l => update op (target.retext r) (value.retext r) l
  | increment delta target l => increment delta (target.retext r) l
  | conditional test yes no l => conditional (test.retext r) (yes.retext r) (no.retext r) l

/-- The expressions with the texts of their strings replaced. -/
def retextAll (r : Location → String → String) : List Expr → List Expr
  | [] => []
  | e :: es => e.retext r :: retextAll r es

end

variable {r : Location → String → String}

theorem stringsAll_eq (es : List Expr) : stringsAll es = es.flatMap strings := by
  induction es with
  | nil => rfl
  | cons e es ih => rw [stringsAll, ih, List.flatMap_cons]

theorem retextAll_eq (es : List Expr) : retextAll r es = es.map (retext r) := by
  induction es with
  | nil => rfl
  | cons e es ih => rw [retextAll, ih, List.map_cons]

/-! ## The strings of tokens -/

theorem CallNode.strings_eq (h : CallNode function es l e) :
    e.strings = es.flatMap Expr.strings := by
  cases h <;> simp [strings]

theorem Listed.strings {arguments : List (List Token × Expr)}
    (h : Listed (arguments.map (·.1)) ts)
    (ha : ∀ argument ∈ arguments, argument.1.flatMap Token.strings = argument.2.strings) :
    ts.flatMap Token.strings = (arguments.map (·.2)).flatMap Expr.strings := by
  generalize hp : arguments.map (·.1) = parts at h
  induction h generalizing arguments with
  | last =>
    obtain ⟨argument, rfl, rfl⟩ := List.map_eq_singleton_iff.1 hp
    simpa using ha
  | cons hc _ ih =>
    obtain ⟨argument, arguments, rfl, rfl, rfl⟩ := List.map_eq_cons_iff.1 hp
    obtain ⟨hfirst, ha⟩ := List.forall_mem_cons.1 ha
    rw [List.flatMap_append, List.flatMap_cons, Token.strings_of_delimiter hc, List.nil_append,
      ih ha rfl, hfirst, List.map_cons, List.flatMap_cons]

/-- The strings of an expression are those of its tokens. -/
theorem Derives.strings (h : Derives names ℓ ts e) : ts.flatMap Token.strings = e.strings := by
  induction h with
  | tighter _ _ ih => exact ih
  | string hk => simp [Token.strings_of_string hk, Expr.strings]
  | number hk | pi hk | slot hk => simp [Token.strings_of_kind, hk, Expr.strings]
  | assign _ _ hd _ ih₁ ih₂ | update _ _ _ hd _ ih₁ ih₂ | binary _ _ hd _ _ ih₁ ih₂ =>
    simp [Token.strings_of_delimiter hd, Expr.strings, ih₁, ih₂]
  | plus hd _ ih | minus hd _ ih | increment hd _ _ ih | decrement hd _ _ ih =>
    simp [Token.strings_of_delimiter hd, Expr.strings, ih]
  | group ho _ hc ih =>
    simp [Token.strings_of_delimiter ho, Token.strings_of_delimiter hc, ih]
  | call hk _ ho _ hl hc he ih =>
    simp [Token.strings_of_kind, hk, Token.strings_of_delimiter ho, Token.strings_of_delimiter hc,
      hl.strings ih, he.strings_eq]
  | print hk _ ho _ hl hc ih =>
    simp [Token.strings_of_kind, hk, Token.strings_of_delimiter ho, Token.strings_of_delimiter hc,
      hl.strings ih, Expr.strings, stringsAll_eq]

/-! ## Other texts for strings -/

theorem isVariable_retext (e : Expr) : (e.retext r).isVariable = e.isVariable := by
  cases e <;> rfl

theorem isAssignable_retext (e : Expr) : (e.retext r).isAssignable = e.isAssignable := by
  fun_induction isAssignable e with
  | case1 => rfl
  | case2 _ _ _ ih => exact ih
  | case3 _ _ _ _ ih => exact ih
  | case4 _ _ _ ih => exact ih
  | case5 e hs ha hu hi =>
    cases e with
    | slot => exact absurd rfl (hs _ _ _)
    | assign => exact absurd rfl (ha _ _ _)
    | update => exact absurd rfl (hu _ _ _ _)
    | increment => exact absurd rfl (hi _ _ _)
    | _ => rfl

theorem CallNode.retext (h : CallNode function es l e) (r : Location → String → String) :
    CallNode function (es.map (Expr.retext r)) l (e.retext r) := by
  cases h with
  | unary => exact .unary
  | binary => exact .binary
  | conditional => exact .conditional

theorem Listed.map_retext (h : Listed parts ts) :
    Listed (parts.map (·.map (Token.retext r))) (ts.map (Token.retext r)) := by
  induction h with
  | last => exact .last
  | cons hc _ ih =>
    rw [List.map_append, List.map_cons, List.map_cons, Token.retext_of_delimiter hc]
    exact .cons hc ih

theorem exists_retext {ℓ : Level} {arguments : List (List Token × Expr)}
    (h : ∀ argument ∈ arguments,
      Derives names ℓ (argument.1.map (Token.retext r)) (argument.2.retext r)) :
    ∃ arguments' : List (List Token × Expr),
      arguments'.map (·.1) = (arguments.map (·.1)).map (·.map (Token.retext r)) ∧
      arguments'.map (·.2) = (arguments.map (·.2)).map (Expr.retext r) ∧
      ∀ argument ∈ arguments', Derives names ℓ argument.1 argument.2 :=
  ⟨arguments.map fun argument => (argument.1.map (Token.retext r), argument.2.retext r),
    by simp, by simp, List.forall_mem_map.2 h⟩

/-- Tokens form an expression with other texts for their strings too. -/
theorem Derives.retext (h : Derives names ℓ ts e) (r : Location → String → String) :
    Derives names ℓ (ts.map (Token.retext r)) (e.retext r) := by
  induction h with
  | tighter hℓ _ ih => exact .tighter hℓ ih
  | string hk =>
    rw [List.map_singleton, Token.retext_of_string hk]
    exact .string hk
  | assign _ ha hd _ ih₁ ih₂ =>
    rw [List.map_append, List.map_cons, Token.retext_of_delimiter hd]
    exact .assign ih₁ ((isAssignable_retext _).trans ha) hd ih₂
  | update _ ha hop hd _ ih₁ ih₂ =>
    rw [List.map_append, List.map_cons, Token.retext_of_delimiter hd]
    exact .update ih₁ ((isAssignable_retext _).trans ha) hop hd ih₂
  | binary _ hop hd hℓ _ ih₁ ih₂ =>
    rw [List.map_append, List.map_cons, Token.retext_of_delimiter hd]
    exact .binary ih₁ hop hd hℓ ih₂
  | plus hd _ ih =>
    rw [List.map_cons, Token.retext_of_delimiter hd]
    exact .plus hd ih
  | minus hd _ ih =>
    rw [List.map_cons, Token.retext_of_delimiter hd]
    exact .minus hd ih
  | increment hd _ hv ih =>
    rw [List.map_cons, Token.retext_of_delimiter hd]
    exact .increment hd ih ((isVariable_retext _).trans hv)
  | decrement hd _ hv ih =>
    rw [List.map_cons, Token.retext_of_delimiter hd]
    exact .decrement hd ih ((isVariable_retext _).trans hv)
  | group ho _ hc ih =>
    rw [List.map_append, List.map_cons, List.map_singleton, Token.retext_of_delimiter ho,
      Token.retext_of_delimiter hc]
    exact .group ho ih hc
  | number hk =>
    rw [List.map_singleton, Token.retext_of_kind (by simp [hk])]
    exact .number hk
  | pi hk ht =>
    rw [List.map_singleton, Token.retext_of_kind (by simp [hk])]
    exact .pi hk ht
  | slot hk ht hi =>
    rw [List.map_singleton, Token.retext_of_kind (by simp [hk])]
    exact .slot hk ht hi
  | call hk hf ho _ hl hc he ih =>
    obtain ⟨arguments', hp, hes, hd⟩ := exists_retext ih
    rw [List.map_append, List.map_cons, List.map_cons, List.map_singleton,
      Token.retext_of_kind (by simp [hk]), Token.retext_of_delimiter ho,
      Token.retext_of_delimiter hc]
    exact .call hk hf ho hd (hp ▸ hl.map_retext) hc (hes ▸ he.retext r)
  | print hk ht ho _ hl hc ih =>
    obtain ⟨arguments', hp, hes, hd⟩ := exists_retext ih
    rw [List.map_append, List.map_cons, List.map_cons, List.map_singleton,
      Token.retext_of_kind (by simp [hk]), Token.retext_of_delimiter ho,
      Token.retext_of_delimiter hc, Expr.retext, retextAll_eq, ← hes]
    exact .print hk ht ho hd (hp ▸ hl.map_retext) hc

end Expr

end FormulaScript
