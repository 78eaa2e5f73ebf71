import FormulaScript.Proofs.Expr.Progress
import Mathlib.Logic.Function.Iterate

/-!
# Reading comes to an end

The grammar of expressions is recursive: expressions are nested in parentheses and calls, a sign
stands in front of an operand that may begin with a sign, and operators and arguments are read round
by round. The functions that read it are given a number of rounds by which they end anyway. Here the
grammar itself is a body that asks for what it reads `again`, and every function agrees with the
body put into itself as often as there are tokens and once more, whatever is put in at last: the
last one is never asked for. So the numbers of rounds are no limits.
-/

namespace FormulaScript.Expr

open Read Reader

/-! ## Bodies of the recursions -/

/-- An expression around nested ones. -/
def expressionOver (inner : Read (Option Expr)) : Read (Option Expr) :=
  assignment (operations (signed (parenthesized inner)) binaryLevels)

/-- One round of a level of operators. -/
def chainOver (table : List (String × α)) (check : Token → Option Expr → Read Unit)
    (join : α → Location → Expr → Expr → Expr) (operand : Read (Option Expr))
    (again : Option Expr → Read (Option Expr)) (left : Option Expr) : Read (Option Expr) := do
  match operator? table (← peek) with
  | none => return left
  | some op =>
    let token ← take
    check token left
    let right ← operand
    again (join op token.location <$> left <*> right)

/-- An operand, or a sign in front of one that is read in the same way. -/
def signedOver (operand again : Read (Option Expr)) : Read (Option Expr) := do
  let token ← peek
  if signs.any token.isDelimiter then
    modify Reader.skip
    applySign token (← again)
  else operand

/-- One argument of `print`, and more if a comma comes first. -/
def printArgumentsOver (expression : Read (Option Expr)) (again : Read (List (Option Expr))) :
    Read (List (Option Expr)) := do
  let token ← peek
  let argument ←
    match token.kind with
    | .string =>
      modify Reader.skip
      pure (some (.string token.text token.location))
    | _ => expression
  if ← accept "," then return argument :: (← again)
  return [argument]

/-! ## Agreement of steps -/

/-- Two steps do the same where fewer than so many tokens are left. -/
def SameBelow (bound : Nat) (step step' : Read α) : Prop :=
  ∀ reader : Reader, reader.rest.length < bound → step.run reader = step'.run reader

/-- A run of the step that gives a result leaves no more tokens than there were. -/
def NonGrowing (step : Read α) : Prop :=
  ∀ reader a left, step.run reader = .ok a left → left.rest.length ≤ reader.rest.length

theorem Proceeds.length_rest {step : Read α} (h : Proceeds least good step)
    (hr : step.run reader = .ok a left) : left.rest.length + least ≤ reader.rest.length :=
  ((h reader).of_ok hr).takes.length_rest

theorem Proceeds.nonGrowing {step : Read α} (h : Proceeds least good step) : NonGrowing step :=
  fun _ _ _ hr => (Nat.le_add_right _ _).trans (h.length_rest hr)

theorem nonGrowing_pure (a : α) : NonGrowing (pure a) := by
  rintro reader _ _ ⟨⟩
  exact Nat.le_refl _

theorem nonGrowing_failHere (problem : Problem) : NonGrowing (failHere problem : Read α) := nofun

theorem nonGrowing_skip : NonGrowing (modify Reader.skip) := by
  rintro reader _ _ ⟨⟩
  simp [Reader.skip]

theorem nonGrowing_take : NonGrowing take := by
  rintro reader _ _ ⟨⟩
  simp [Reader.skip]

theorem run_bind_congr {step step' : Read α} {next next' : α → Read β} {reader : Reader}
    (h : step.run reader = step'.run reader)
    (hn : ∀ a left, step'.run reader = .ok a left → (next a).run left = (next' a).run left) :
    (step >>= next).run reader = (step' >>= next').run reader := by
  rw [EStateM.run_bind, EStateM.run_bind, h]
  cases hr : step'.run reader with
  | ok a left => exact hn a left hr
  | error => rfl

namespace SameBelow

variable {bound : Nat} {p q : Read (Option Expr)}

theorem refl (bound : Nat) (step : Read α) : SameBelow bound step step := fun _ _ => rfl

theorem bind {step step' : Read α} {next next' : α → Read β} (h : SameBelow bound step step')
    (hg : NonGrowing step') (hn : ∀ a, SameBelow bound (next a) (next' a)) :
    SameBelow bound (step >>= next) (step' >>= next') := fun reader hlt =>
  run_bind_congr (h reader hlt) fun a left hr => hn a left ((hg _ _ _ hr).trans_lt hlt)

/-- After the same step. -/
theorem next {step : Read α} {next next' : α → Read β} (hg : NonGrowing step)
    (hn : ∀ a, SameBelow bound (next a) (next' a)) :
    SameBelow bound (step >>= next) (step >>= next') :=
  (refl bound step).bind hg hn

section

variable {table : List (String × α)} {check : Token → Option Expr → Read Unit}
  {join : α → Location → Expr → Expr → Expr}

theorem chain (h : SameBelow bound p q) (hq : NonGrowing q)
    (hc : ∀ t left, NonGrowing (check t left)) (rounds : Nat) (left : Option Expr) :
    SameBelow bound (chain table check join p rounds left)
      (chain table check join q rounds left) := by
  induction rounds generalizing left with
  | zero => exact refl bound _
  | succ rounds ih =>
    refine next Proceeds.peek.nonGrowing fun token => ?_
    cases operator? table token with
    | none => exact refl bound _
    | some op =>
      exact next nonGrowing_take fun token => next (hc token left) fun _ =>
        h.bind hq fun right => ih _

theorem level (h : SameBelow bound p q) (hq : NonGrowing q)
    (hc : ∀ t left, NonGrowing (check t left)) :
    SameBelow bound (level table check join p) (level table check join q) :=
  h.bind hq fun left => next Proceeds.get.nonGrowing fun _ => h.chain hq hc _ left

end

theorem operations (h : SameBelow bound p q) (hq : Proceeds 1 (·.isSome) q)
    (tables : List (List (String × BinaryOp))) :
    SameBelow bound (operations p tables) (operations q tables) := by
  induction tables with
  | nil => exact h
  | cons table tables ih =>
    exact ih.level (hq.operations tables).nonGrowing fun _ _ => nonGrowing_pure ()

theorem signed (h : SameBelow bound p q) (hq : NonGrowing q) :
    SameBelow bound (signed p) (signed q) :=
  next Proceeds.takeSigns.nonGrowing fun _ => h.bind hq fun _ => refl bound _

/-! ## Calls and parentheses -/

/-- The arguments after one are read if a comma comes first. -/
theorem more {others others' : Read (List (Option Expr))} (h : SameBelow bound others others')
    (e : Option Expr) (hg : NonGrowing others') :
    SameBelow bound
      (do
        if ← Read.accept "," then return e :: (← others)
        return [e])
      (do
        if ← Read.accept "," then return e :: (← others')
        return [e]) :=
  next (Proceeds.accept ",").nonGrowing fun found => by
    cases found with
    | true => exact h.bind hg fun es => refl bound _
    | false => exact refl bound _

theorem arguments (h : SameBelow bound p q) (hq : Proceeds 1 (·.isSome) q) (tooFew : Problem)
    (missing : Nat) :
    SameBelow bound (arguments p tooFew missing) (arguments q tooFew missing) := by
  induction missing with
  | zero => exact refl bound _
  | succ missing ih =>
    refine next (Proceeds.sees ")").nonGrowing fun found => ?_
    have hrest : SameBelow bound
        (do
          let argument ← p
          if missing = 0 then return [argument]
          if ← Read.accept "," then return argument :: (← Expr.arguments p tooFew missing)
          return [argument])
        (do
          let argument ← q
          if missing = 0 then return [argument]
          if ← Read.accept "," then return argument :: (← Expr.arguments q tooFew missing)
          return [argument]) := by
      refine h.bind hq.nonGrowing fun e => ?_
      split
      · exact refl bound _
      · next hm =>
        exact ih.more e (hq.arguments tooFew (Nat.pos_of_ne_zero hm)).nonGrowing
    cases found with
    | true => exact next (nonGrowing_failHere tooFew) fun _ => hrest
    | false => exact hrest

theorem printArguments (h : SameBelow bound p q) (hq : Proceeds 1 (·.isSome) q) (rounds : Nat) :
    SameBelow bound (printArguments p rounds) (printArguments q rounds) := by
  induction rounds with
  | zero => exact refl bound _
  | succ rounds ih =>
    refine next Proceeds.peek.nonGrowing fun token => ?_
    have hmore (e : Option Expr) := ih.more e (hq.printArguments rounds).nonGrowing
    cases token.kind with
    | string => exact next nonGrowing_skip fun _ => hmore _
    | _ => exact h.bind hq.nonGrowing hmore

/-- What is read in a call comes after the name of the function. -/
theorem call (h : SameBelow bound p q) (hq : Proceeds 1 (·.isSome) q) {reader : Reader}
    (hlt : reader.skip.rest.length < bound) : (call p).run reader = (call q).run reader := by
  refine run_bind_congr rfl ?_
  rintro token _ ⟨⟩
  suffices SameBelow bound _ _ from this reader.skip hlt
  split
  · refine next nonGrowing_skip fun _ => next Proceeds.get.nonGrowing fun start => ?_
    exact (h.printArguments hq _).bind (hq.printArguments _).nonGrowing fun _ => refl bound _
  · split
    · exact refl bound _
    · next function _ =>
      refine next nonGrowing_skip fun _ => ?_
      exact (h.arguments hq _ _).bind (hq.arguments _ (arity_pos function)).nonGrowing
        fun _ => refl bound _

theorem primary (h : SameBelow bound p q) (hq : Proceeds 1 (·.isSome) q) :
    SameBelow (bound + 1) (primary p) (primary q) := by
  intro reader hlt
  refine run_bind_congr rfl ?_
  rintro token _ ⟨⟩
  split
  · rfl
  · rfl
  · next hk =>
    have hname : reader.Takes 1 reader.skip := .of_kind hk (by simp)
    have hlength := hname.length_rest
    exact h.call hq (by omega)
  · rfl

theorem parenthesized (h : SameBelow bound p q) (hq : Proceeds 1 (·.isSome) q) :
    SameBelow (bound + 1) (parenthesized p) (parenthesized q) := by
  intro reader hlt
  by_cases ho : reader.next.isDelimiter "("
  · refine run_bind_congr rfl ?_
    rw [run_accept_of_true ho]
    rintro _ _ ⟨⟩
    have hinner : SameBelow bound (do let inner ← p; Read.close; return inner)
        (do let inner ← q; Read.close; return inner) :=
      h.bind hq.nonGrowing fun _ => refl bound _
    have hlength := (Takes.delimiter ho).length_rest
    suffices SameBelow bound _ _ from this reader.skip (by omega)
    refine next (Proceeds.sees ")").nonGrowing fun found => ?_
    cases found with
    | true => exact next (nonGrowing_failHere _) fun _ => hinner
    | false => exact hinner
  · refine run_bind_congr rfl ?_
    rw [run_accept_of_false (by simpa using ho)]
    rintro _ _ ⟨⟩
    exact h.primary hq reader hlt

theorem expressionOver (h : SameBelow bound p q) (hq : Proceeds 1 (·.isSome) q) :
    SameBelow (bound + 1) (expressionOver p) (expressionOver q) := by
  have hsigned := hq.parenthesized.signed
  have hlevels := ((h.parenthesized hq).signed hq.parenthesized.nonGrowing).operations
    hsigned binaryLevels
  exact hlevels.level (hsigned.operations binaryLevels).nonGrowing fun t left =>
    (Proceeds.checkTarget t left).nonGrowing

/-! ## One round of a recursion -/

theorem signedOver {again again' : Read (Option Expr)} (h : SameBelow bound again again') :
    SameBelow (bound + 1) (signedOver p again) (signedOver p again') := by
  intro reader hlt
  refine run_bind_congr rfl ?_
  rintro _ _ ⟨⟩
  split
  · next hs =>
    obtain ⟨symbol, -, hd⟩ := List.any_eq_true.1 hs
    have hlength := (Takes.delimiter hd).length_rest
    refine run_bind_congr rfl ?_
    rintro _ _ ⟨⟩
    exact run_bind_congr (h reader.skip (by omega)) fun _ _ _ => rfl
  · rfl

theorem printArgumentsOver {again again' : Read (List (Option Expr))}
    (h : SameBelow bound again again') (hp : Proceeds 1 (·.isSome) p) (hg : NonGrowing again') :
    SameBelow (bound + 1) (printArgumentsOver p again) (printArgumentsOver p again') := by
  intro reader hlt
  refine run_bind_congr rfl ?_
  rintro _ _ ⟨⟩
  split
  · next hk =>
    have hstring : reader.Takes 1 reader.skip := .of_kind hk (by simp)
    have hlength := hstring.length_rest
    refine run_bind_congr rfl ?_
    rintro _ _ ⟨⟩
    exact h.more _ hg reader.skip (by omega)
  · refine run_bind_congr rfl fun e left hr => ?_
    have hlength := hp.length_rest hr
    exact h.more e hg left (by omega)

/-- A recursion that goes on with fewer tokens ends after as many rounds as there are tokens and
one more. -/
theorem iterate {body : Read α → Read α} (step : Nat → Read α)
    (hstep : ∀ depth, step (depth + 1) = body (step depth))
    (hbody : ∀ {bound : Nat} {again : Read α} (depth : Nat), SameBelow bound again (step depth) →
      SameBelow (bound + 1) (body again) (body (step depth)))
    (again : Read α) (bound : Nat) :
    SameBelow bound (body^[bound] again) (do step ((← get).rest.length + 1)) := by
  have hunrolled (again : Read α) (depth : Nat) :
      SameBelow depth (body^[depth] again) (step depth) := by
    induction depth with
    | zero => exact fun _ h => absurd h (Nat.not_lt_zero _)
    | succ depth ih =>
      rw [Function.iterate_succ_apply', hstep]
      exact hbody depth ih
  intro reader hlt
  obtain ⟨others, rfl⟩ := Nat.exists_eq_add_of_le hlt
  rw [Function.iterate_add_apply]
  exact hunrolled _ _ reader (Nat.lt_succ_self _)

end SameBelow

/-! ## The rounds of every recursion -/

variable {operand p : Read (Option Expr)}

/-- Whatever is put in at last, an expression is read by its grammar put into itself once more than
there are tokens. -/
theorem expression_unrolls (again : Read (Option Expr)) (bound : Nat) :
    SameBelow bound (expressionOver^[bound] again)
      (do expression ((← get).rest.length + 1)) :=
  .iterate expression (fun _ => rfl) (fun depth h => h.expressionOver (.expression depth)) again
    bound

theorem printArguments_unrolls (hp : Proceeds 1 (·.isSome) p)
    (again : Read (List (Option Expr))) (bound : Nat) :
    SameBelow bound ((printArgumentsOver p)^[bound] again)
      (do printArguments p ((← get).rest.length + 1)) :=
  .iterate (printArguments p) (fun _ => rfl)
    (fun rounds h => h.printArgumentsOver hp (hp.printArguments rounds).nonGrowing) again bound

theorem run_takeSigns_of_false (h : signs.any reader.next.isDelimiter = false) :
    takeSigns.run reader = .ok [] reader := by
  have hrun : reader.rest.takeWhile (fun token => signs.any token.isDelimiter) = [] := by
    unfold Reader.next at h
    cases hr : reader.rest with
    | nil => rfl
    | cons t rest => exact List.takeWhile_cons_of_neg (by simpa [hr] using h)
  change EStateM.Result.ok _ _ = _
  rw [hrun]
  rfl

theorem run_takeSigns_of_true (h : signs.any reader.next.isDelimiter) :
    takeSigns.run reader =
      (do
        let run ← takeSigns
        return reader.next :: run : Read (List Token)).run reader.skip := by
  obtain ⟨symbol, -, hd⟩ := List.any_eq_true.1 h
  have hr := reader.rest_eq_of_isDelimiter hd
  have hrun : reader.rest.takeWhile (fun token => signs.any token.isDelimiter) =
      reader.next :: reader.skip.rest.takeWhile fun token => signs.any token.isDelimiter := by
    rw [hr]
    exact List.takeWhile_cons_of_pos h
  generalize htail : reader.skip.rest.takeWhile (fun token => signs.any token.isDelimiter) = tail
    at hrun
  have hleft : { reader with
        rest := reader.rest.drop (tail.length + 1)
        position := reader.position + (tail.length + 1) } =
      { reader.skip with
        rest := reader.skip.rest.drop tail.length
        position := reader.skip.position + tail.length } := by
    simp only [Reader.skip, List.drop_tail, Nat.add_assoc, Nat.add_comm 1]
  simp only [takeSigns, EStateM.run_bind, run_get, run_modify, hrun, htail, List.length_cons, hleft,
    EStateM.run_pure]

/-- Signs are read one after the other. -/
theorem signed_eq (operand : Read (Option Expr)) :
    signed operand = signedOver operand (signed operand) := by
  funext reader
  change (signed operand).run reader = (signedOver operand (signed operand)).run reader
  unfold signedOver
  rw [run_bind_of_ok (run_peek reader)]
  by_cases hs : signs.any reader.next.isDelimiter
  · rw [if_pos hs, run_bind_of_ok (run_modify _ _)]
    unfold signed
    rw [EStateM.run_bind, run_takeSigns_of_true hs, ← EStateM.run_bind]
    simp only [bind_assoc, pure_bind, applySigns]
  · rw [if_neg hs]
    unfold signed
    rw [run_bind_of_ok (run_takeSigns_of_false (by simpa using hs))]
    exact congrArg (EStateM.run · reader) (bind_pure operand)

theorem signed_unrolls (operand again : Read (Option Expr)) (bound : Nat) :
    SameBelow bound ((signedOver operand)^[bound] again) (signed operand) :=
  .iterate (fun _ => signed operand) (fun _ => signed_eq operand) (fun _ h => h.signedOver) again
    bound

section

variable {table : List (String × α)} {check : Token → Option Expr → Read Unit}
  {join : α → Location → Expr → Expr → Expr}

theorem run_chainOver_of_none (h : operator? table reader.next = none)
    (again : Option Expr → Read (Option Expr)) (left : Option Expr) :
    (chainOver table check join operand again left).run reader = .ok left reader := by
  unfold chainOver
  rw [run_bind_of_ok (run_peek reader), h]
  rfl

/-- The rounds of a level are read one after the other. Every round takes an operator at least. -/
theorem chain_unrolls (hc : ∀ t left, NonGrowing (check t left))
    (hp : Proceeds 1 (·.isSome) operand) (again : Option Expr → Read (Option Expr)) (bound : Nat)
    (left : Option Expr) :
    SameBelow bound ((chainOver table check join operand)^[bound] again left)
      (do chain table check join operand (← get).rest.length left) := by
  suffices ∀ (rounds : Nat) (reader : Reader), reader.rest.length < bound →
      reader.rest.length ≤ rounds →
      ((chainOver table check join operand)^[bound] again left).run reader =
        (chain table check join operand rounds left).run reader from
    fun reader hlt => this _ reader hlt (Nat.le_refl _)
  induction bound generalizing left with
  | zero => exact fun _ _ h => absurd h (Nat.not_lt_zero _)
  | succ bound ih =>
    intro rounds reader hlt hle
    rw [Function.iterate_succ_apply']
    cases hop : operator? table reader.next with
    | none =>
      rw [run_chainOver_of_none hop]
      cases rounds with
      | zero => rfl
      | succ rounds => exact (run_chainOver_of_none hop _ left).symm
    | some op =>
      obtain ⟨symbol, -, hd⟩ := operator?_eq_some hop
      have hlength := (Takes.delimiter hd).length_rest
      obtain ⟨rounds, rfl⟩ := Nat.exists_eq_add_of_lt (show 0 < rounds by omega)
      rw [Nat.zero_add] at hle ⊢
      refine run_bind_congr rfl ?_
      rintro _ _ ⟨⟩
      rw [hop]
      refine run_bind_congr rfl ?_
      rintro _ _ ⟨⟩
      refine run_bind_congr rfl fun _ start hcheck => ?_
      refine run_bind_congr rfl fun right last hr => ?_
      have hstart := hc _ _ _ _ _ hcheck
      have hlast := hp.nonGrowing _ _ _ hr
      exact ih _ rounds last (by omega) (by omega)

end

/-! ## Any list of tokens -/

/-- The step is the body put into itself once more than there are tokens, whatever is put in at
last. -/
def Unrolls (body : Read α → Read α) (step : Read α) : Prop :=
  ∀ again bound, SameBelow bound (body^[bound] again) step

/-- A level of operators is the rounds that it is made of. -/
def LevelUnrolls (table : List (String × α)) (check : Token → Option Expr → Read Unit)
    (join : α → Location → Expr → Expr → Expr) (operand : Read (Option Expr)) : Prop :=
  ∀ again bound left, SameBelow bound ((chainOver table check join operand)^[bound] again left)
    (do chain table check join operand (← get).rest.length left)

/-- The recursions that read parts of expressions around nested ones come to an end. -/
structure FunctionsUnroll (p : Read (Option Expr)) : Prop where
  signs : Unrolls (signedOver (parenthesized p)) (signed (parenthesized p))
  operators : ∀ table tighter, LevelUnrolls table (fun _ _ => pure ())
    (fun op location left right => .binary op left right location)
    (operations (signed (parenthesized p)) tighter)
  assigned : LevelUnrolls assignments checkTarget joinAssignment
    (operations (signed (parenthesized p)) binaryLevels)
  printed : Unrolls (printArgumentsOver p) (do printArguments p ((← get).rest.length + 1))

theorem Proceeds.functionsUnroll (hp : Proceeds 1 (·.isSome) p) : FunctionsUnroll p where
  signs := signed_unrolls _
  operators _ tighter :=
    chain_unrolls (fun _ _ => nonGrowing_pure ()) (hp.parenthesized.signed.operations tighter)
  assigned := chain_unrolls (fun t left => (Proceeds.checkTarget t left).nonGrowing)
    (hp.parenthesized.signed.operations binaryLevels)
  printed := printArguments_unrolls hp

/-- Reading ends on any list of tokens, wherever its ends are and whatever follows the names of
functions: nested expressions, signs, operators and the arguments of `print` are read in no more
rounds than there are tokens left and one more. The reader is one place past the list at most, and
every function that gives a result has taken a token. There is an expression, unless something has
been reported or there is a number literal without a value: so every call that is read to its end
has as many arguments as its function takes. -/
theorem reading_stops (tokens : List Token) (vars : Variables) (autoAdd : Bool) :
    let result := ofTokens tokens vars autoAdd
    result.2.position ≤ tokens.length + 1 ∧
    result.2.rest = tokens.drop result.2.position ∧
    (result.1.isSome ∨ result.2.diagnostics ≠ [] ∨ ∃ t ∈ tokens, t.kind = .number none) ∧
    Unrolls expressionOver (do expression ((← get).rest.length + 1)) ∧
    ∀ depth, FunctionsProgress (expression depth) ∧ FunctionsUnroll (expression depth) := by
  intro result
  obtain ⟨⟨count, hc, hm⟩, he⟩ := moves_ofTokens tokens vars autoAdd
  have hposition : result.2.position = count := hm.position.trans (Nat.zero_add count)
  refine ⟨hposition ▸ hc, hposition ▸ hm.rest, ?_, expression_unrolls, fun depth => ?_⟩
  · refine he.imp_right fun he => ?_
    rcases he with hd | hn
    · exact .inl (List.ne_nil_of_length_pos hd)
    · exact .inr hn
  · have hp := Proceeds.expression depth
    exact ⟨hp.functionsProgress, hp.functionsUnroll⟩

/-- The name of a function alone, without a parenthesis or an end, leads past the list. -/
theorem reading_stops_past_end :
    let result := ofTokens [⟨.function, "sin", 0, {}⟩] {} false
    result.2.position = 2 ∧ result.2.position ≤ 1 + 1 ∧ result.2.diagnostics ≠ [] := by
  intro result
  obtain ⟨hle, -, he, -⟩ := reading_stops [⟨.function, "sin", 0, {}⟩] {} false
  have hposition : result.2.position = 2 := by decide +kernel
  have hnone : ¬ result.1.isSome := by decide +kernel
  refine ⟨hposition, hle, ?_⟩
  rcases he with hs | hd | ⟨t, ht, hk⟩
  · exact absurd hs hnone
  · exact hd
  · obtain rfl := List.mem_singleton.1 ht
    cases hk

end FormulaScript.Expr
