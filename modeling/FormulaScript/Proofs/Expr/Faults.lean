import FormulaScript.Proofs.Expr.Shape

/-!
# Faults at other places

What is reported of an expression does not depend on where its tokens stand. Over the same variables
two readings of tokens of the same shapes report the same and add the same names, and stop at the
same fault or both come to an end.
-/

namespace FormulaScript

open Token (shape)

/-- The diagnostic without its position. -/
def Diagnostic.unplaced (diagnostic : Diagnostic) : Diagnostic :=
  { diagnostic with position := none }

/-! ## Steps that agree -/

/-- The readers have the same variables, and both or none of them add names. Their tokens have the
same shapes, and they have reported the same, none of it with a line. -/
structure Reader.Agrees (reader reader' : Reader) : Prop where
  rest : reader'.rest.map shape = reader.rest.map shape
  vars : reader'.vars = reader.vars
  autoAdd : reader'.autoAdd = reader.autoAdd
  faults : reader'.diagnostics.map (·.unplaced) = reader.diagnostics.map (·.unplaced)
  lines : ∀ diagnostic ∈ reader.diagnostics, diagnostic.line = none

namespace Read

/-- From readers that agree the steps come to readers that agree, with related results, or both
stop. -/
def Agrees (related : α → α → Prop) (step step' : Read α) : Prop :=
  ∀ reader reader' : Reader, reader.Agrees reader' →
    match step.run reader, step'.run reader' with
    | .ok a left, .ok a' left' => related a a' ∧ left.Agrees left'
    | .error _ left, .error _ left' => left.Agrees left'
    | _, _ => False

/-- The tokens have the same shape. -/
abbrev SameShape (t t' : Token) : Prop := t'.shape = t.shape

variable {related : α → α → Prop} {related' : β → β → Prop}
  {reader reader' : Reader} {t t' : Token} {text : String}

theorem agrees_pure (h : related a a') : Agrees related (pure a) (pure a') :=
  fun _ _ hr => ⟨h, hr⟩

theorem Agrees.bind {step step' : Read α} {next next' : α → Read β}
    (h : Agrees related step step')
    (h' : ∀ a a', related a a' → Agrees related' (next a) (next' a')) :
    Agrees related' (step >>= next) (step' >>= next') := by
  intro reader reader' hr
  have hs := h reader reader' hr
  rw [EStateM.run_bind, EStateM.run_bind]
  cases ha : step.run reader with
  | ok a left =>
    cases ha' : step'.run reader' with
    | ok a' left' =>
      rw [ha, ha'] at hs
      exact h' a a' hs.1 left left' hs.2
    | error => simp [ha, ha'] at hs
  | error s left =>
    cases ha' : step'.run reader' with
    | ok => simp [ha, ha'] at hs
    | error s' left' =>
      rw [ha, ha'] at hs
      exact hs

theorem isDelimiter_of_sameShape (h : SameShape t t') (text : String) :
    t'.isDelimiter text = t.isDelimiter text := by
  unfold Token.isDelimiter
  rw [Token.kind_eq_of_shape h, Token.text_eq_of_shape h]

end Read

namespace Reader.Agrees

variable {reader reader' : Reader} {t t' : Token}

open Read (SameShape)

theorem next (h : reader.Agrees reader') : SameShape reader.next reader'.next := by
  have hn (reader : Reader) : reader.next.shape =
      (reader.rest.map shape).head?.getD finish.shape := by
    unfold Reader.next
    cases reader.rest <;> rfl
  rw [SameShape, hn, hn, h.rest]

theorem skip (h : reader.Agrees reader') : reader.skip.Agrees reader'.skip where
  rest := by rw [Reader.skip, Reader.skip, List.map_tail, List.map_tail, h.rest]
  vars := h.vars
  autoAdd := h.autoAdd
  faults := h.faults
  lines := h.lines

theorem report (h : reader.Agrees reader') (problem : Problem) (t t' : Token) :
    (reader.report problem t).Agrees (reader'.report problem t') where
  rest := h.rest
  vars := h.vars
  autoAdd := h.autoAdd
  faults := by
    rw [Reader.report, Reader.report, List.map_append, List.map_append, h.faults]
    rfl
  lines := List.forall_mem_append.2 ⟨h.lines, List.forall_mem_singleton.2 rfl⟩

theorem length (h : reader.Agrees reader') : reader'.rest.length = reader.rest.length := by
  rw [← List.length_map shape, h.rest, List.length_map]

end Reader.Agrees

namespace Read

variable {related : α → α → Prop} {related' : β → β → Prop} {t t' : Token}

/-- Results of steps of which nothing is asked. -/
abbrev Unrelated (_ _ : α) : Prop := True

theorem agrees_peek : Agrees SameShape peek peek := fun _ _ h => ⟨h.next, h⟩

theorem agrees_take : Agrees SameShape take take := fun _ _ h => ⟨h.next, h.skip⟩

theorem agrees_modify {f f' : Reader → Reader}
    (h : ∀ reader reader', reader.Agrees reader' → (f reader).Agrees (f' reader')) :
    Agrees Unrelated (modify f) (modify f') :=
  fun reader reader' hr => ⟨trivial, h reader reader' hr⟩

theorem agrees_skip : Agrees Unrelated (modify Reader.skip) (modify Reader.skip) :=
  agrees_modify fun _ _ h => h.skip

theorem agrees_get : Agrees (Reader.Agrees) get get := fun _ _ h => ⟨h, h⟩

theorem agrees_set {reader reader' : Reader} (h : reader.Agrees reader') :
    Agrees Unrelated (set reader) (set reader') := fun _ _ _ => ⟨trivial, h⟩

theorem agrees_report (problem : Problem) (t t' : Token) :
    Agrees Unrelated (report problem t) (report problem t') :=
  fun _ _ h => ⟨trivial, h.report problem t t'⟩

theorem agrees_fail (problem : Problem) (t t' : Token) :
    Agrees related (fail problem t) (fail problem t') :=
  fun _ _ h => h.report problem t t'

theorem agrees_failHere (problem : Problem) :
    Agrees related (failHere problem) (failHere problem) :=
  agrees_peek.bind fun t t' _ => agrees_fail problem t t'

/-- What comes after a fault is not reached. -/
theorem agrees_fail_bind (problem : Problem) (t t' : Token) (next next' : α → Read β) :
    Agrees related' (fail problem t >>= next) (fail problem t' >>= next') := by
  have h : Agrees (fun _ _ : α => False) (fail problem t) (fail problem t') :=
    agrees_fail problem t t'
  exact h.bind fun _ _ => False.elim

theorem agrees_failHere_bind (problem : Problem) (next next' : α → Read β) :
    Agrees related' (failHere problem >>= next) (failHere problem >>= next') := by
  have h : Agrees (fun _ _ : α => False) (failHere problem) (failHere problem) :=
    agrees_failHere problem
  exact h.bind fun _ _ => False.elim

theorem agrees_sees (text : String) : Agrees Eq (sees text) (sees text) :=
  fun _ _ h => ⟨(isDelimiter_of_sameShape h.next text).symm, h⟩

theorem agrees_accept (text : String) : Agrees Eq (accept text) (accept text) := by
  refine (agrees_sees text).bind fun found found' hf => ?_
  cases hf
  split
  · exact agrees_skip.bind fun _ _ _ => agrees_pure rfl
  · exact agrees_pure rfl

theorem agrees_close : Agrees Unrelated close close := by
  refine (agrees_accept ")").bind fun found found' hf => ?_
  cases hf
  split
  · exact agrees_pure trivial
  · exact agrees_failHere _

end Read

/-! ## Operators -/

namespace Expr

open Read

/-- What the reading looks at in an expression that it has read. -/
def role (e : Expr) : Bool × Bool := (e.isVariable, e.isAssignable)

/-- The expressions have the same role, or both are missing. -/
abbrev SameRole (e e' : Option Expr) : Prop := e'.map role = e.map role

variable {operand : Read (Option Expr)} {t t' : Token}

theorem operator?_of_sameShape (h : SameShape t t') (table : List (String × α)) :
    operator? table t' = operator? table t := by
  have he : (fun entry : String × α => t'.isDelimiter entry.1) =
      fun entry => t.isDelimiter entry.1 :=
    funext fun entry => isDelimiter_of_sameShape h entry.1
  rw [operator?, he, operator?]

/-- What joins two operands looks only at their roles, and what checks the left one too. -/
structure JoinsByRole (check : Token → Option Expr → Read Unit)
    (join : α → Location → Expr → Expr → Expr) : Prop where
  check : ∀ {t t' e e'}, SameShape t t' → SameRole e e' →
    Agrees Unrelated (check t e) (check t' e')
  join : ∀ op l l' {a a' b b' : Expr}, a'.role = a.role → b'.role = b.role →
    (join op l' a' b').role = (join op l a b).role

theorem SameRole.cases {e e' : Option Expr} (h : SameRole e e') :
    e = none ∧ e' = none ∨ ∃ a a', e = some a ∧ e' = some a' ∧ a'.role = a.role := by
  cases e with
  | none => exact .inl ⟨rfl, Option.map_eq_none_iff.1 h⟩
  | some a =>
    obtain ⟨a', rfl, ha⟩ := Option.map_eq_some_iff.1 h
    exact .inr ⟨a, a', rfl, rfl, ha⟩

theorem JoinsByRole.sameRole {check : Token → Option Expr → Read Unit}
    {join : α → Location → Expr → Expr → Expr} (hj : JoinsByRole check join)
    {left left' right right' : Option Expr} (hl : SameRole left left') (hr : SameRole right right')
    (op : α) (l l' : Location) :
    SameRole (join op l <$> left <*> right) (join op l' <$> left' <*> right') := by
  rcases hl.cases with ⟨rfl, rfl⟩ | ⟨a, a', rfl, rfl, ha⟩
  · rfl
  · rcases hr.cases with ⟨rfl, rfl⟩ | ⟨b, b', rfl, rfl, hb⟩
    · rfl
    · exact congrArg some (hj.join op l l' ha hb)

theorem agrees_chain {check : Token → Option Expr → Read Unit}
    {join : α → Location → Expr → Expr → Expr} (hj : JoinsByRole check join)
    (ho : Agrees SameRole operand operand) (table : List (String × α)) (rounds : Nat)
    {left left' : Option Expr} (h : SameRole left left') :
    Agrees SameRole (chain table check join operand rounds left)
      (chain table check join operand rounds left') := by
  induction rounds generalizing left left' with
  | zero => exact agrees_pure h
  | succ rounds ih =>
    refine agrees_peek.bind fun t t' ht => ?_
    rw [operator?_of_sameShape ht]
    cases operator? table t with
    | none => exact agrees_pure h
    | some op =>
      exact agrees_take.bind fun t t' ht => (hj.check ht h).bind fun _ _ _ =>
        ho.bind fun right right' hr => ih (hj.sameRole h hr op t.location t'.location)

theorem agrees_level {check : Token → Option Expr → Read Unit}
    {join : α → Location → Expr → Expr → Expr} (hj : JoinsByRole check join)
    (ho : Agrees SameRole operand operand) (table : List (String × α)) :
    Agrees SameRole (level table check join operand) (level table check join operand) := by
  refine ho.bind fun left left' hl => agrees_get.bind fun reader reader' hr => ?_
  rw [hr.length]
  exact agrees_chain hj ho table _ hl

theorem joinsByRole_binary : JoinsByRole (fun _ _ => pure ())
    (fun op location left right => .binary op left right location) where
  check _ _ := agrees_pure trivial
  join _ _ _ _ _ _ _ _ _ := rfl

theorem agrees_operations (ho : Agrees SameRole operand operand)
    (levels : List (List (String × BinaryOp))) :
    Agrees SameRole (operations operand levels) (operations operand levels) := by
  induction levels with
  | nil => exact ho
  | cons table tighter ih => exact agrees_level joinsByRole_binary ih table

theorem isVariable_of_role {a a' : Expr} (h : a'.role = a.role) : a'.isVariable = a.isVariable :=
  congrArg Prod.fst h

theorem isAssignable_of_role {a a' : Expr} (h : a'.role = a.role) :
    a'.isAssignable = a.isAssignable :=
  congrArg Prod.snd h

theorem joinsByRole_assignment : JoinsByRole checkTarget joinAssignment where
  check {t t' e e'} ht he := by
    have hany : e'.any (!·.isAssignable) = e.any (!·.isAssignable) := by
      rcases he.cases with ⟨rfl, rfl⟩ | ⟨a, a', rfl, rfl, ha⟩
      · rfl
      · simp [isAssignable_of_role ha]
    unfold checkTarget
    rw [hany, Token.text_eq_of_shape ht]
    split
    · exact agrees_fail _ t t'
    · exact agrees_pure trivial
  join op l l' a a' b b' _ hb := by
    have ha := isAssignable_of_role hb
    cases op with
    | none => exact congrArg (false, ·) ha
    | some op => exact congrArg (false, ·) ha

/-! ## Signs -/

theorem map_takeWhile_signs (ts : List Token) :
    (ts.takeWhile fun t => signs.any t.isDelimiter).map shape =
      (ts.map shape).takeWhile fun s => signs.any (Token.isDelimiter ⟨s.1, s.2, 0, {}⟩) := by
  rw [List.takeWhile_map]
  rfl

theorem agrees_takeSigns : Agrees (fun run run' => run'.map shape = run.map shape)
    takeSigns takeSigns := by
  refine agrees_get.bind fun reader reader' h => ?_
  have hrun : (reader'.rest.takeWhile fun t => signs.any t.isDelimiter).map shape =
      (reader.rest.takeWhile fun t => signs.any t.isDelimiter).map shape := by
    rw [map_takeWhile_signs, map_takeWhile_signs, h.rest]
  have hlength := congrArg List.length hrun
  rw [List.length_map, List.length_map] at hlength
  dsimp only
  rw [hlength]
  refine Agrees.bind (agrees_modify fun _ _ hr => ?_) fun _ _ _ => agrees_pure hrun
  exact ⟨by simp only [List.map_drop, hr.rest], hr.vars, hr.autoAdd, hr.faults, hr.lines⟩

theorem agrees_applySign (ht : SameShape t t') {e e' : Option Expr} (h : SameRole e e') :
    Agrees SameRole (applySign t e) (applySign t' e') := by
  rcases h.cases with ⟨rfl, rfl⟩ | ⟨a, a', rfl, rfl, ha⟩
  · exact agrees_pure rfl
  · have hassignable := isAssignable_of_role ha
    unfold applySign
    dsimp only
    rw [Token.text_eq_of_shape ht, isVariable_of_role ha]
    split
    · exact agrees_pure (congrArg some ha)
    · split
      · exact agrees_pure rfl
      · split
        · exact agrees_pure (congrArg (some <| Prod.mk false ·) hassignable)
        · exact agrees_fail _ t t'

theorem agrees_applySigns {run run' : List Token} (hr : run'.map shape = run.map shape)
    {e e' : Option Expr} (h : SameRole e e') :
    Agrees SameRole (applySigns run e) (applySigns run' e') := by
  induction run generalizing run' with
  | nil =>
    cases List.map_eq_nil_iff.1 hr
    exact agrees_pure h
  | cons t run ih =>
    obtain ⟨t', run', rfl, ht, hr⟩ := List.map_eq_cons_iff.1 hr
    exact (ih hr).bind fun _ _ h => agrees_applySign ht h

theorem agrees_signed (ho : Agrees SameRole operand operand) :
    Agrees SameRole (signed operand) (signed operand) :=
  agrees_takeSigns.bind fun _ _ hr => ho.bind fun _ _ h => agrees_applySigns hr h

/-! ## Calls -/

theorem agrees_resolve (ht : SameShape t t') : Agrees SameRole (resolve t) (resolve t') := by
  unfold resolve
  rw [Token.text_eq_of_shape ht]
  dsimp only
  cases constants.lookup t.text with
  | some value => exact agrees_pure rfl
  | none =>
    refine agrees_get.bind fun reader reader' h => ?_
    rw [h.vars, h.autoAdd]
    cases reader.vars.indexOf? t.text with
    | some index => exact agrees_pure rfl
    | none =>
      dsimp only
      split
      · have hset : Reader.Agrees { reader with vars := (reader.vars.add t.text).2 }
            { reader' with vars := (reader.vars.add t.text).2, autoAdd := reader.autoAdd } :=
          ⟨h.rest, rfl, rfl, h.faults, h.lines⟩
        refine (agrees_set hset).bind fun _ _ _ => ?_
        cases (reader.vars.add t.text).1 with
        | some index => exact agrees_pure rfl
        | none => exact (agrees_report _ t t').bind fun _ _ _ => agrees_pure rfl
      · exact (agrees_report _ t t').bind fun _ _ _ => agrees_pure rfl

/-- As many expressions, of the same roles. -/
abbrev SameRoles (es es' : List (Option Expr)) : Prop := List.Forall₂ SameRole es es'

variable {expression : Read (Option Expr)}

/-- After an argument others follow it if there is a comma. -/
theorem agrees_more {e e' : Option Expr} (h : SameRole e e')
    {others others' : Read (List (Option Expr))} (ho : Agrees SameRoles others others') :
    Agrees SameRoles
      (do if ← accept "," then return e :: (← others)
          return [e])
      (do if ← accept "," then return e' :: (← others')
          return [e']) := by
  refine (agrees_accept ",").bind fun found found' hf => ?_
  cases hf
  split
  · exact ho.bind fun es es' hes => agrees_pure (.cons h hes)
  · exact agrees_pure (.cons h .nil)

theorem agrees_arguments (he : Agrees SameRole expression expression) (tooFew : Problem)
    (missing : Nat) : Agrees SameRoles (arguments expression tooFew missing)
      (arguments expression tooFew missing) := by
  induction missing with
  | zero => exact agrees_pure .nil
  | succ missing ih =>
    refine (agrees_sees ")").bind fun found found' hf => ?_
    cases hf
    cases found with
    | true => exact agrees_failHere_bind tooFew _ _
    | false =>
      refine he.bind fun e e' h => ?_
      by_cases hm : missing = 0
      · simp only [if_pos hm]
        exact agrees_pure (.cons h .nil)
      · simp only [if_neg hm]
        exact agrees_more h ih

theorem agrees_printArguments (he : Agrees SameRole expression expression) (rounds : Nat) :
    Agrees SameRoles (printArguments expression rounds)
      (printArguments expression rounds) := by
  induction rounds with
  | zero => exact agrees_failHere _
  | succ rounds ih =>
    refine agrees_peek.bind fun t t' ht => ?_
    rw [Token.kind_eq_of_shape ht]
    split
    · have hstring : SameRole (some (.string t.text t.location))
          (some (.string t'.text t'.location)) := rfl
      refine agrees_skip.bind fun _ _ _ => ?_
      simp only [pure_bind]
      exact agrees_more hstring ih
    · exact he.bind fun e e' h => agrees_more h ih

theorem SameRoles.mapM {es es' : List (Option Expr)} (h : SameRoles es es') :
    (es'.mapM id).map List.length = (es.mapM id).map List.length := by
  induction h with
  | nil => rfl
  | @cons e e' es es' h _ ih =>
    rcases h.cases with ⟨rfl, rfl⟩ | ⟨a, a', rfl, rfl, -⟩
    · rfl
    · cases hes : es.mapM id <;> cases hes' : es'.mapM id <;> simp_all

theorem map_role_ofCall (function : Builtin) (es : List Expr) (l : Location) :
    (ofCall function es l).map role =
      if es.length = function.arity then some (false, false) else none := by
  match es with
  | [] | [_] | [_, _] | [_, _, _] => cases function <;> rfl
  | a :: b :: c :: d :: es =>
    have hl : (a :: b :: c :: d :: es).length ≠ function.arity := by
      cases function <;> simp [Builtin.arity]
    rw [if_neg hl]
    cases function <;> rfl

theorem SameRoles.ofCall {es es' : List (Option Expr)} (h : SameRoles es es') (function : Builtin)
    (l l' : Location) : SameRole ((es.mapM id).bind (Expr.ofCall function · l))
      ((es'.mapM id).bind (Expr.ofCall function · l')) := by
  have hm := h.mapM
  cases hes : es.mapM id with
  | none =>
    rw [hes] at hm
    rw [Option.map_eq_none_iff.1 hm]
    rfl
  | some as =>
    rw [hes] at hm
    obtain ⟨as', hes', hl⟩ := Option.map_eq_some_iff.1 hm
    rw [hes', SameRole, Option.bind_some, Option.bind_some, map_role_ofCall, map_role_ofCall, hl]

theorem SameRoles.print {es es' : List (Option Expr)} (h : SameRoles es es') (l l' : Location) :
    SameRole ((es.mapM id).map (.print · l)) ((es'.mapM id).map (.print · l')) := by
  have hm := congrArg (Option.map fun _ => (false, false)) h.mapM
  simpa [SameRole, Function.comp_def, role, isVariable, isAssignable] using hm

theorem agrees_call (he : Agrees SameRole expression expression) :
    Agrees SameRole (call expression) (call expression) := by
  refine agrees_take.bind fun t t' ht => ?_
  rw [Token.text_eq_of_shape ht]
  split
  · refine agrees_skip.bind fun _ _ _ => agrees_get.bind fun reader reader' hr => ?_
    rw [hr.length]
    exact (agrees_printArguments he _).bind fun es es' hes => agrees_close.bind fun _ _ _ =>
      agrees_pure (hes.print t.location t'.location)
  · cases Builtin.ofName? t.text with
    | none => exact agrees_fail _ t t'
    | some function =>
      refine agrees_skip.bind fun _ _ _ => (agrees_arguments he _ _).bind fun es es' hes => ?_
      rw [hes.length_eq]
      have hclose : Agrees SameRole
          (do close
              return (es.mapM id).bind (Expr.ofCall function · t.location))
          (do close
              return (es'.mapM id).bind (Expr.ofCall function · t'.location)) :=
        agrees_close.bind fun _ _ _ => agrees_pure (hes.ofCall function t.location t'.location)
      by_cases hl : es'.length < function.arity
      · simp only [if_pos hl]
        refine (agrees_sees ")").bind fun found found' hf => ?_
        cases hf
        cases found with
        | false => exact hclose
        | true => exact agrees_failHere_bind _ _ _
      · simp only [if_neg hl]
        exact hclose

/-! ## Expressions -/

theorem agrees_primary (he : Agrees SameRole expression expression) :
    Agrees SameRole (primary expression) (primary expression) := by
  refine agrees_peek.bind fun t t' ht => ?_
  have hu : unexpected t' = unexpected t := by
    unfold unexpected
    rw [Token.kind_eq_of_shape ht, Token.text_eq_of_shape ht]
  rw [Token.kind_eq_of_shape ht, hu]
  split
  · next value? _ =>
    have hvalue : SameRole (value?.map (.literal · t.location))
        (value?.map (.literal · t'.location)) := by
      cases value? <;> rfl
    exact agrees_skip.bind fun _ _ _ => agrees_pure hvalue
  · exact agrees_skip.bind fun _ _ _ => agrees_resolve ht
  · exact agrees_call he
  · exact agrees_fail _ t t'

theorem agrees_parenthesized (he : Agrees SameRole expression expression) :
    Agrees SameRole (parenthesized expression) (parenthesized expression) := by
  refine (agrees_accept "(").bind fun found found' hf => ?_
  cases hf
  cases found with
  | false => exact agrees_primary he
  | true =>
    refine (agrees_sees ")").bind fun found found' hf => ?_
    cases hf
    cases found with
    | true => exact agrees_failHere_bind _ _ _
    | false => exact he.bind fun e e' h => agrees_close.bind fun _ _ _ => agrees_pure h

theorem agrees_expression (depth : Nat) :
    Agrees SameRole (Expr.expression depth) (Expr.expression depth) := by
  induction depth with
  | zero => exact agrees_failHere _
  | succ depth ih =>
    exact agrees_level joinsByRole_assignment
      (agrees_operations (agrees_signed (agrees_parenthesized ih)) binaryLevels) assignments

theorem agrees_whole : Agrees SameRole whole whole := by
  refine agrees_get.bind fun reader reader' hr => ?_
  rw [hr.length]
  refine (agrees_expression _).bind fun e e' h => agrees_peek.bind fun t t' ht => ?_
  have hf : t'.isFinish = t.isFinish := by
    unfold Token.isFinish
    rw [Token.kind_eq_of_shape ht]
  rw [hf, isDelimiter_of_sameShape ht, Token.text_eq_of_shape ht]
  cases t.isFinish with
  | true => exact agrees_pure h
  | false =>
    cases t.isDelimiter ")" with
    | true => exact agrees_fail_bind .unbalancedParentheses t t' _ _
    | false => exact agrees_fail _ t t'

/-! ## Texts -/

/-- Readings of tokens of the same shapes end alike. -/
theorem agrees_ofTokens (vars : Variables) (autoAdd : Bool) {ts us : List Token}
    (h : us.map shape = ts.map shape) :
    Reader.Agrees (ofTokens ts vars autoAdd).2 (ofTokens us vars autoAdd).2 := by
  have hr : Reader.Agrees { rest := ts, vars, autoAdd } { rest := us, vars, autoAdd } :=
    ⟨h, rfl, rfl, rfl, List.forall_mem_nil _⟩
  have hf : (Reader.next { rest := us, vars, autoAdd }).isFinish =
      (Reader.next { rest := ts, vars, autoAdd }).isFinish := by
    unfold Token.isFinish
    rw [Token.kind_eq_of_shape hr.next]
  have hw := agrees_whole _ _ hr
  unfold ofTokens
  dsimp only
  rw [hf]
  split
  · exact hr.report _ _ _
  · split at hw
    · next ht hu =>
      rw [ht, hu]
      exact hw.2
    · next ht hu =>
      rw [ht, hu]
      exact hw
    · exact hw.elim

theorem faults_scanFrom (position : Nat) (location : Location) (source : List Char) :
    (Token.scanFrom position location source).2.map (·.unplaced) =
      (Token.lexemes source).flatMap fun lexeme => lexeme.problem.toList.map (⟨·, none, none⟩) := by
  refine Token.scanFrom_induction (motive := fun source scanned =>
    scanned.2.map (·.unplaced) = (Token.lexemes source).flatMap
      fun lexeme => lexeme.problem.toList.map (⟨·, none, none⟩)) ?_ ?_ position location source
  · intro source position location h
    rw [Token.lexemes_eq_nil h]
    rfl
  · intro source first rest position location tail h ih
    rw [Token.lexemes_eq_cons h, List.map_append, List.flatMap_cons, ih]
    simp [Token.Lexeme.diagnostics, Diagnostic.unplaced]

theorem line_of_mem_scanFrom {position : Nat} {location : Location} {source : List Char}
    {d : Diagnostic} (h : d ∈ (Token.scanFrom position location source).2) : d.line = none := by
  have hm : d.unplaced ∈ (Token.scanFrom position location source).2.map (·.unplaced) :=
    List.mem_map_of_mem h
  rw [faults_scanFrom] at hm
  obtain ⟨lexeme, -, hm⟩ := List.mem_flatMap.1 hm
  obtain ⟨problem, -, he⟩ := List.mem_map.1 hm
  exact congrArg Diagnostic.line he.symm

/-- What is reported of an expression has no line. -/
theorem line_of_mem_parse {text : List Char} {vars : Variables} {autoAdd : Bool} {d : Diagnostic}
    (h : d ∈ (parse text vars autoAdd).diagnostics) : d.line = none := by
  rcases List.mem_append.1 h with h | h
  · exact line_of_mem_scanFrom h
  · exact (agrees_ofTokens vars autoAdd rfl).lines d h

/-- Texts with the same lexemes have tokens of the same shapes. -/
theorem shapes_of_lexemes {text text' : List Char} (hn : '\x00' ∉ text) (hn' : '\x00' ∉ text')
    (hl : Token.lexemes text' = Token.lexemes text) :
    (Token.scan text').1.map shape = (Token.scan text).1.map shape := by
  rw [Token.scan_eq_scanFrom hn, Token.scan_eq_scanFrom hn', (Token.scanFrom_lexemes ..).1,
    (Token.scanFrom_lexemes ..).1, hl]

/-- Texts with the same lexemes have the same faults in them. -/
theorem faults_scan_of_lexemes {text text' : List Char} (hn : '\x00' ∉ text)
    (hn' : '\x00' ∉ text') (hl : Token.lexemes text' = Token.lexemes text) :
    (Token.scan text').2.map (·.unplaced) = (Token.scan text).2.map (·.unplaced) := by
  rw [Token.scan_eq_scanFrom hn, Token.scan_eq_scanFrom hn', faults_scanFrom, faults_scanFrom, hl]

/-- Texts with the same lexemes have the same faults, and add the same names. -/
theorem faults_of_lexemes {text text' : List Char} (hn : '\x00' ∉ text) (hn' : '\x00' ∉ text')
    (hl : Token.lexemes text' = Token.lexemes text) (vars : Variables) (autoAdd : Bool) :
    (parse text' vars autoAdd).diagnostics.map (·.unplaced) =
        (parse text vars autoAdd).diagnostics.map (·.unplaced) ∧
      (parse text' vars autoAdd).vars = (parse text vars autoAdd).vars := by
  have hr := agrees_ofTokens vars autoAdd (shapes_of_lexemes hn hn' hl)
  refine ⟨?_, hr.vars⟩
  unfold parse
  dsimp only
  rw [List.map_append, List.map_append, faults_scan_of_lexemes hn hn' hl, hr.faults]

end Expr

end FormulaScript
