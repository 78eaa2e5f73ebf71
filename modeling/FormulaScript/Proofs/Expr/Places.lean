import FormulaScript.Proofs.Evaluation
import FormulaScript.Proofs.Expr.Shape

/-!
# Expressions without places

What an expression does when it is evaluated does not depend on its locations. So expressions can be
compared after all of them are forgotten: the lexemes of a text then determine the expression that
it forms, wherever the text stands, and an expression of the lexemes is one of the text.
-/

namespace FormulaScript

/-! ## Tokens -/

namespace Token

/-- A token of a kind and a text that stands nowhere. -/
def ofShape (shape : Kind × String) : Token := ⟨shape.1, shape.2, 0, {}⟩

/-- The token with its place forgotten. -/
def unplaced (token : Token) : Token := ofShape token.shape

def Lexeme.unplaced (lexeme : Lexeme) : Token := ofShape lexeme.shape

/-- Without their places, the tokens of a text are its lexemes. -/
theorem unplaced_scan {text : List Char} (h : '\x00' ∉ text) :
    (beforeFinish (scan text).1).map unplaced = (lexemes text).map Lexeme.unplaced := by
  have hs := congrArg (List.map ofShape) (shapes_scan h)
  rw [List.map_map, List.map_map] at hs
  exact hs

theorem NumbersReflexive.unplaced (h : NumbersReflexive ts) :
    NumbersReflexive (ts.map Token.unplaced) := by
  intro t ht value hk
  obtain ⟨u, hu, rfl⟩ := List.mem_map.1 ht
  exact h u hu value hk

end Token

namespace Expr

open Evaluation

/-! ## Expressions -/

mutual

/-- The expression with all its locations forgotten. -/
def unplaced : Expr → Expr
  | literal value _ => literal value {}
  | slot name index _ => slot name index {}
  | string text _ => string text {}
  | unary op operand _ => unary op operand.unplaced {}
  | binary op left right _ => binary op left.unplaced right.unplaced {}
  | print arguments _ => print (unplacedAll arguments) {}
  | assign target value _ => assign target.unplaced value.unplaced {}
  | update op target value _ => update op target.unplaced value.unplaced {}
  | increment delta target _ => increment delta target.unplaced {}
  | conditional test yes no _ => conditional test.unplaced yes.unplaced no.unplaced {}

def unplacedAll : List Expr → List Expr
  | [] => []
  | e :: es => e.unplaced :: unplacedAll es

end

theorem unplacedAll_eq_map (es : List Expr) : unplacedAll es = es.map unplaced := by
  induction es with
  | nil => rfl
  | cons e es ih => rw [unplacedAll, ih, List.map_cons]

theorem isVariable_unplaced (e : Expr) : e.unplaced.isVariable = e.isVariable := by
  cases e <;> rfl

theorem isAssignable_unplaced (e : Expr) : e.unplaced.isAssignable = e.isAssignable := by
  fun_induction isAssignable e with
  | case1 => rfl
  | case2 _ _ _ ih | case3 _ _ _ _ ih | case4 _ _ _ ih => exact ih
  | case5 e hs ha hu hi =>
    cases e with
    | slot => exact absurd rfl (hs _ _ _)
    | assign => exact absurd rfl (ha _ _ _)
    | update => exact absurd rfl (hu _ _ _ _)
    | increment => exact absurd rfl (hi _ _ _)
    | _ => rfl

theorem CallNode.unplaced (h : CallNode function es l e) :
    CallNode function (es.map Expr.unplaced) {} e.unplaced := by
  cases h with
  | unary => exact .unary
  | binary => exact .binary
  | conditional => exact .conditional

/-! ## Derivations -/

theorem Listed.unplaced (h : Listed parts ts) :
    Listed (parts.map (·.map Token.unplaced)) (ts.map Token.unplaced) := by
  induction h with
  | last => exact .last
  | cons hc _ ih =>
    rw [List.map_cons, List.map_append, List.map_cons]
    exact .cons hc ih

/-- The tokens and the expression of an argument without their places. -/
def unplacedArgument (argument : List Token × Expr) : List Token × Expr :=
  (argument.1.map Token.unplaced, argument.2.unplaced)

theorem fst_unplacedArgument (arguments : List (List Token × Expr)) :
    (arguments.map unplacedArgument).map (·.1) =
      (arguments.map (·.1)).map (·.map Token.unplaced) := by
  rw [List.map_map, List.map_map]
  rfl

theorem snd_unplacedArgument (arguments : List (List Token × Expr)) :
    (arguments.map unplacedArgument).map (·.2) = (arguments.map (·.2)).map unplaced := by
  rw [List.map_map, List.map_map]
  rfl

/-- Tokens that form an expression form it without its locations when they have none. -/
theorem Derives.unplaced (h : Derives names ℓ ts e) :
    Derives names ℓ (ts.map Token.unplaced) e.unplaced := by
  induction h with
  | tighter hℓ _ ih => exact .tighter hℓ ih
  | string hk => exact .string hk
  | assign _ ht hd _ ih₁ ih₂ =>
    rw [List.map_append, List.map_cons]
    exact .assign ih₁ ((isAssignable_unplaced _).trans ht) hd ih₂
  | update _ ht hop hd _ ih₁ ih₂ =>
    rw [List.map_append, List.map_cons]
    exact .update ih₁ ((isAssignable_unplaced _).trans ht) hop hd ih₂
  | binary _ hop hd hℓ _ ih₁ ih₂ =>
    rw [List.map_append, List.map_cons]
    exact .binary ih₁ hop hd hℓ ih₂
  | plus hd _ ih => exact .plus hd ih
  | minus hd _ ih => exact .minus hd ih
  | increment hd _ hv ih => exact .increment hd ih ((isVariable_unplaced _).trans hv)
  | decrement hd _ hv ih => exact .decrement hd ih ((isVariable_unplaced _).trans hv)
  | group ho _ hc ih =>
    rw [List.map_append, List.map_cons]
    exact .group ho ih hc
  | number hk => exact .number hk
  | pi hk ht => exact .pi hk ht
  | slot hk ht hi => exact .slot hk ht hi
  | @call _ _ _ _ _ _ arguments hk hf ho _ hs hc he ih =>
    have hd : ∀ argument ∈ arguments.map unplacedArgument,
      Derives names .assignment argument.1 argument.2 := List.forall_mem_map.2 ih
    rw [List.map_append, List.map_cons, List.map_cons]
    refine .call hk hf ho hd ?_ hc ?_
    · rw [fst_unplacedArgument]
      exact hs.unplaced
    · rw [snd_unplacedArgument]
      exact he.unplaced
  | @print _ _ _ _ arguments hk ht ho _ hs hc ih =>
    have hd : ∀ argument ∈ arguments.map unplacedArgument,
      Derives names .argument argument.1 argument.2 := List.forall_mem_map.2 ih
    rw [List.map_append, List.map_cons, List.map_cons, Expr.unplaced, unplacedAll_eq_map,
      ← snd_unplacedArgument]
    refine .print hk ht ho hd ?_ hc
    rw [fst_unplacedArgument]
    exact hs.unplaced

/-! ## Lexemes -/

/-- The lexemes have no faults, and form an expression of a level that stands nowhere. -/
structure Spells (names : List String) (ℓ : Level) (ls : List Token.Lexeme) (e : Expr) : Prop where
  faultless : ∀ lexeme ∈ ls, lexeme.problem = none
  derives : Derives names ℓ (ls.map Token.Lexeme.unplaced) e

/-- The lexemes of a text spell the expression that the text forms, without its locations. -/
theorem Forms.spells (h : Forms names text e) (hn : '\x00' ∉ text) :
    Spells names .assignment (Token.lexemes text) e.unplaced where
  faultless := (Token.scan_faultless_iff hn).1 h.faultless
  derives := Token.unplaced_scan hn ▸ h.derives.unplaced

/-- A text forms what its lexemes spell, at some locations. -/
theorem Spells.exists_forms (h : Spells names .assignment (Token.lexemes text) e)
    (hn : '\x00' ∉ text) : ∃ e', Forms names text e' ∧ e'.unplaced = e := by
  have hr := (numbersReflexive_scan text).unplaced
  rw [Token.unplaced_scan hn] at hr
  have hs : (Token.beforeFinish (Token.scan text).1).map Token.shape =
      ((Token.lexemes text).map Token.Lexeme.unplaced).map Token.shape := by
    rw [Token.shapes_scan hn, List.map_map]
    rfl
  obtain ⟨e', he, -⟩ := h.derives.reshape hr hs
  have hf : Forms names text e' := ⟨(Token.scan_faultless_iff hn).2 h.faultless, he⟩
  exact ⟨e', hf, (hf.spells hn).derives.unique h.derives⟩

/-! ## Moved expressions -/

/-- The expressions are the same but for their locations. `same` alone would take the two zeros for
one number. -/
structure Moved (e' e : Expr) : Prop where
  same : e'.same e
  unplaced : e'.unplaced = e.unplaced

/-- Texts with the same lexemes form the same expression at different places. -/
theorem Forms.exists_moved (h : Forms names text e) (hn : '\x00' ∉ text) (hn' : '\x00' ∉ text')
    (hl : Token.lexemes text' = Token.lexemes text) :
    ∃ e', Forms names text' e' ∧ e'.Moved e := by
  obtain ⟨e', he, hs⟩ := h.of_lexemes hn hn' hl
  have hr := he.spells hn'
  rw [hl] at hr
  exact ⟨e', he, hs, hr.derives.unique (h.spells hn).derives⟩

/-! ## Evaluation -/

theorem assignValue_unplaced (e : Expr) (value : Float) :
    e.unplaced.assignValue value = e.assignValue value := by
  fun_induction assignValue e value with
  | case1 => rfl
  | case2 target source _ value ihs iht | case3 _ target source _ value ihs iht =>
    rw [← ihs, ← funext iht]
    rfl
  | case4 _ target _ value ih => exact ih
  | case5 e value hs ha hu hi =>
    cases e with
    | slot => exact absurd rfl (hs _ _ _)
    | assign => exact absurd rfl (ha _ _ _)
    | update => exact absurd rfl (hu _ _ _ _)
    | increment => exact absurd rfl (hi _ _ _)
    | _ => rfl

theorem exists_slot_of_unplacedAll (h : unplacedAll es = [.slot name index l]) :
    ∃ place, es = [.slot name index place] := by
  rw [unplacedAll_eq_map] at h
  obtain ⟨e, rfl, he⟩ := List.map_eq_singleton_iff.1 h
  cases e with
  | slot name index place =>
    cases he
    exact ⟨place, rfl⟩
  | _ => cases he

mutual

/-- Expressions do the same wherever they stand. -/
theorem evaluate_unplaced (tolerance : Int) (e : Expr) :
    e.unplaced.evaluate tolerance = e.evaluate tolerance := by
  match e with
  | .literal .. | .slot .. | .string .. => rfl
  | .unary op operand _ =>
    simp only [Expr.unplaced, evaluate, evaluate_unplaced tolerance operand]
  | .binary op left right _ =>
    simp only [Expr.unplaced, evaluate, evaluate_unplaced tolerance left,
      evaluate_unplaced tolerance right]
  | .print arguments _ =>
    by_cases hone : ∃ name index place, arguments = [.slot name index place]
    · obtain ⟨name, index, place, rfl⟩ := hone
      rfl
    · rw [Expr.unplaced, evaluate, evaluate, evaluateAll_unplaced tolerance arguments]
      · exact fun name index place h => hone ⟨name, index, place, h⟩
      · intro name index place h
        obtain ⟨place, h⟩ := exists_slot_of_unplacedAll h
        exact hone ⟨name, index, place, h⟩
  | .assign target value _ =>
    simp only [Expr.unplaced, evaluate, evaluate_unplaced tolerance value, assignValue_unplaced]
  | .update op target value _ =>
    simp only [Expr.unplaced, evaluate, evaluate_unplaced tolerance target,
      evaluate_unplaced tolerance value, assignValue_unplaced]
  | .increment delta target _ =>
    simp only [Expr.unplaced, evaluate, evaluate_unplaced tolerance target, assignValue_unplaced]
  | .conditional test yes no _ =>
    simp only [Expr.unplaced, evaluate, evaluate_unplaced tolerance test,
      evaluate_unplaced tolerance yes, evaluate_unplaced tolerance no]

theorem evaluateAll_unplaced (tolerance : Int) (es : List Expr) (last : Float) :
    evaluateAll tolerance (unplacedAll es) last = evaluateAll tolerance es last := by
  match es with
  | [] => rfl
  | e :: es =>
    by_cases hs : ∃ text l, e = .string text l
    · obtain ⟨text, l, rfl⟩ := hs
      rw [unplacedAll, Expr.unplaced, evaluateAll, evaluateAll, evaluateAll_unplaced tolerance es]
    · have hs' (text : String) (l : Location) : e.unplaced ≠ .string text l := by
        intro h
        cases e with
        | string => exact hs ⟨_, _, rfl⟩
        | _ => cases h
      rw [unplacedAll, evaluateAll, evaluateAll, evaluate_unplaced tolerance e]
      · simp only [evaluateAll_unplaced tolerance es]
      · exact fun text l h => hs ⟨text, l, h⟩
      · exact hs'

end

theorem Moved.evaluate_eq {e e' : Expr} (h : e'.Moved e) (tolerance : Int) :
    e'.evaluate tolerance = e.evaluate tolerance := by
  rw [← evaluate_unplaced, h.unplaced, evaluate_unplaced]

end Expr

end FormulaScript
