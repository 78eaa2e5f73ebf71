import FormulaScript.Proofs.Expr.Gathering
import FormulaScript.Proofs.Expr.Recognition

/-!
# The variables of an expression

From left to right the variables of an expression are those among its tokens, and each has the slot
of its name. So parsing a text that adds unknown names adds those of the variables of its
expression, in their order.
-/

namespace FormulaScript.Expr

mutual

/-- The variables of an expression from left to right, each with its slot. -/
def uses : Expr → List (String × Nat)
  | literal .. | string .. => []
  | slot name index _ => [(name, index)]
  | unary _ operand _ => operand.uses
  | binary _ left right _ => left.uses ++ right.uses
  | print arguments _ => usesAll arguments
  | assign target value _ => target.uses ++ value.uses
  | update _ target value _ => target.uses ++ value.uses
  | increment _ target _ => target.uses
  | conditional test yes no _ => test.uses ++ (yes.uses ++ no.uses)

def usesAll : List Expr → List (String × Nat)
  | [] => []
  | e :: es => e.uses ++ usesAll es

end

theorem usesAll_eq_flatMap (es : List Expr) : usesAll es = es.flatMap uses := by
  induction es with
  | nil => rfl
  | cons e es ih => rw [usesAll, ih, List.flatMap_cons]

theorem CallNode.uses_eq (h : CallNode function es l e) : e.uses = es.flatMap uses := by
  cases h <;> simp [uses]

/-! ## Tokens -/

variable {ts us : List Token} {t : Token}

theorem variableNames_cons (h : t.kind ≠ .name) (ts : List Token) :
    variableNames (t :: ts) = variableNames ts := by
  simp [variableNames, Token.isVariable_eq_false h]

theorem variableNames_delimiter (h : t.isDelimiter symbol) (ts : List Token) :
    variableNames (t :: ts) = variableNames ts :=
  variableNames_cons (by simp [(Token.isDelimiter_iff.1 h).1]) ts

theorem variableNames_listed {parts : List (List Token)} (h : Listed parts ts) :
    variableNames ts = parts.flatMap variableNames := by
  induction h with
  | last => simp
  | cons hc _ ih =>
    rw [variableNames_append, variableNames_delimiter hc, ih, List.flatMap_cons]

/-- The variables are those among the tokens, and every slot is the place of its name. -/
structure HasSlots (names : List String) (ts : List Token) (e : Expr) : Prop where
  read : e.uses.map (·.1) = variableNames ts
  places : ∀ s ∈ e.uses, names.idxOf? s.1 = some s.2

variable {names : List String}

/-- Two operands with tokens around and between them that are no names. -/
theorem HasSlots.pair (h : HasSlots names ts left) (h' : HasSlots names us right)
    (ht : t.isDelimiter symbol) (he : e.uses = left.uses ++ right.uses) :
    HasSlots names (ts ++ t :: us) e where
  read := by
    rw [he, List.map_append, h.read, h'.read, variableNames_append, variableNames_delimiter ht]
  places := he ▸ List.forall_mem_append.2 ⟨h.places, h'.places⟩

theorem HasSlots.sign (h : HasSlots names ts operand) (ht : t.isDelimiter symbol)
    (he : e.uses = operand.uses) : HasSlots names (t :: ts) e where
  read := by rw [he, h.read, variableNames_delimiter ht]
  places := he ▸ h.places

theorem HasSlots.enclosed (h : HasSlots names ts e) (ho : opening.isDelimiter "(")
    (hc : closing.isDelimiter ")") : HasSlots names (opening :: ts ++ [closing]) e where
  read := by
    rw [h.read, variableNames_append, variableNames_delimiter ho, variableNames_delimiter hc]
    exact (List.append_nil _).symm
  places := h.places

theorem HasSlots.arguments {arguments : List (List Token × Expr)}
    (h : ∀ argument ∈ arguments, HasSlots names argument.1 argument.2)
    (hl : Listed (arguments.map (·.1)) ts) (he : e.uses = (arguments.map (·.2)).flatMap uses) :
    HasSlots names ts e where
  read := by
    rw [he, variableNames_listed hl, List.map_flatMap, List.flatMap_map, List.flatMap_map]
    exact List.flatMap_congr fun argument ha => (h argument ha).read
  places := by
    rw [he, List.flatMap_map]
    exact List.forall_mem_flatMap.2 fun argument ha => (h argument ha).places

theorem Derives.hasSlots (h : Derives names ℓ ts e) : HasSlots names ts e := by
  have constant {t : Token} {e : Expr} (hv : t.isVariable = false) (he : e.uses = []) :
      HasSlots names [t] e :=
    ⟨by simp [he, variableNames, hv], he ▸ List.forall_mem_nil _⟩
  have call {t opening closing : Token} {ts : List Token} {e : Expr} (hk : t.kind = .function)
      (ho : opening.isDelimiter "(") (hc : closing.isDelimiter ")") (h : HasSlots names ts e) :
      HasSlots names (t :: opening :: ts ++ [closing]) e := by
    have hin := h.enclosed ho hc
    exact ⟨hin.read.trans (variableNames_cons (by simp [hk]) _).symm, hin.places⟩
  induction h with
  | tighter _ _ ih => exact ih
  | string hk | number hk => exact constant (Token.isVariable_eq_false (by simp [hk])) rfl
  | pi hk ht => exact constant (by simp [Token.isVariable_of_kind hk, ht]) rfl
  | slot hk ht hi =>
    refine ⟨?_, List.forall_mem_singleton.2 hi⟩
    simp [Expr.uses, variableNames, Token.isVariable_of_kind hk, ht]
  | assign _ _ hd _ ih ih' | update _ _ _ hd _ ih ih' | binary _ _ hd _ _ ih ih' =>
    exact ih.pair ih' hd rfl
  | plus hd _ ih | minus hd _ ih | increment hd _ _ ih | decrement hd _ _ ih =>
    exact ih.sign hd rfl
  | group ho _ hc ih => exact ih.enclosed ho hc
  | call hk _ ho _ hl hc he ih => exact call hk ho hc (.arguments ih hl he.uses_eq)
  | print hk _ ho _ hl hc ih => exact call hk ho hc (.arguments ih hl (usesAll_eq_flatMap _))

/-! ## Texts -/

/-- The variables of an expression are those among the tokens of its text. -/
theorem Forms.hasSlots (h : Forms names text e) :
    HasSlots names (Token.beforeFinish (Token.scan text).1) e :=
  h.derives.hasSlots

end FormulaScript.Expr
