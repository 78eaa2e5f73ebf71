import FormulaScript.Expr.Parse
import FormulaScript.Proofs.Token.Scan
import FormulaScript.Proofs.Variables

/-!
# The grammar of expressions

`Derives names ℓ ts e` says that the tokens `ts` form an expression of level `ℓ`, and that `e` is
its tree when the variables are `names`. The levels from `assignment` to `power` are left recursive:
their operators group to the left. Besides the shape of the tokens a derivation asks that targets
are assignable, that `++` and `--` stand in front of variables, that calls have as many arguments as
the function takes, and that names are known.
-/

namespace FormulaScript.Expr

/-- The levels of the grammar, from the loosest to the tightest. An argument of `print` comes before
all of them, since it may be a string. -/
inductive Level
  | argument
  | assignment
  | disjunction
  | conjunction
  | equality
  | order
  | sum
  | product
  | power
  | signed
  | operand
deriving DecidableEq

namespace Level

/-- The next tighter level. -/
def tighter? : Level → Option Level
  | argument => some assignment
  | assignment => some disjunction
  | disjunction => some conjunction
  | conjunction => some equality
  | equality => some order
  | order => some sum
  | sum => some product
  | product => some power
  | power => some signed
  | signed => some operand
  | operand => none

/-- The place of the level in the order of binding. -/
def rank : Level → Nat
  | argument => 0
  | assignment => 1
  | disjunction => 2
  | conjunction => 3
  | equality => 4
  | order => 5
  | sum => 6
  | product => 7
  | power => 8
  | signed => 9
  | operand => 10

/-- The binary operators of a level. -/
def operators : Level → List (String × BinaryOp)
  | disjunction => [("||", .either)]
  | conjunction => [("&&", .both)]
  | equality => [("==", .comparison .equal), ("!=", .comparison .notEqual)]
  | order =>
    [("<", .comparison .less), ("<=", .comparison .atMost),
     (">", .comparison .greater), (">=", .comparison .atLeast)]
  | sum => [("+", .arithmetic .add), ("-", .arithmetic .sub)]
  | product => [("*", .arithmetic .mul), ("/", .arithmetic .div), ("%", .arithmetic .mod)]
  | power => [("^", .arithmetic .caret)]
  | argument | assignment | signed | operand => []

/-- The assignment operators that combine the old value with the new one. -/
def updates : List (String × Arithmetic) :=
  [("+=", .add), ("-=", .sub), ("*=", .mul), ("/=", .div)]

/-- The symbols that stand between the operands of a level. -/
def symbols : Level → List String
  | assignment => "=" :: updates.map (·.1)
  | ℓ => ℓ.operators.map (·.1)

end Level

/-- Parts one after another, with a comma between any two. -/
inductive Listed : List (List Token) → List Token → Prop
  | last : Listed [ts] ts
  | cons : comma.isDelimiter "," → Listed parts us → Listed (ts :: parts) (ts ++ comma :: us)

/-- The node of a call of a function with some arguments at a location. Every function takes a fixed
number of them. -/
inductive CallNode : Builtin → List Expr → Location → Expr → Prop
  | unary : CallNode (.unary op) [operand] l (.unary op operand l)
  | binary : CallNode (.binary op) [left, right] l (.binary op left right l)
  | conditional : CallNode .conditional [test, yes, no] l (.conditional test yes no l)

/-- The tokens of a level, with the tree that they form over a list of variables. -/
inductive Derives (names : List String) : Level → List Token → Expr → Prop
  | tighter : ℓ.tighter? = some ℓ' → Derives names ℓ' ts e → Derives names ℓ ts e
  | string : t.kind = .string → Derives names .argument [t] (.string t.text t.location)
  | assign : Derives names .assignment ts target → target.isAssignable → t.isDelimiter "=" →
      Derives names .disjunction us value →
      Derives names .assignment (ts ++ t :: us) (.assign target value t.location)
  | update : Derives names .assignment ts target → target.isAssignable →
      (symbol, op) ∈ Level.updates → t.isDelimiter symbol → Derives names .disjunction us value →
      Derives names .assignment (ts ++ t :: us) (.update op target value t.location)
  | binary : Derives names ℓ ts left → (symbol, op) ∈ ℓ.operators → t.isDelimiter symbol →
      ℓ.tighter? = some ℓ' → Derives names ℓ' us right →
      Derives names ℓ (ts ++ t :: us) (.binary op left right t.location)
  | plus : t.isDelimiter "+" → Derives names .signed ts e → Derives names .signed (t :: ts) e
  | minus : t.isDelimiter "-" → Derives names .signed ts e →
      Derives names .signed (t :: ts) (.unary (.function .negate) e t.location)
  | increment : t.isDelimiter "++" → Derives names .signed ts e → e.isVariable →
      Derives names .signed (t :: ts) (.increment 1.0 e t.location)
  | decrement : t.isDelimiter "--" → Derives names .signed ts e → e.isVariable →
      Derives names .signed (t :: ts) (.increment (-1.0) e t.location)
  | group : opening.isDelimiter "(" → Derives names .assignment ts e → closing.isDelimiter ")" →
      Derives names .operand (opening :: ts ++ [closing]) e
  | number : t.kind = .number (some value) →
      Derives names .operand [t] (.literal value t.location)
  | pi : t.kind = .name → t.text = "PI" → Derives names .operand [t] (.literal pi t.location)
  | slot : t.kind = .name → t.text ≠ "PI" → names.idxOf? t.text = some index →
      Derives names .operand [t] (.slot t.text index t.location)
  | call {arguments : List (List Token × Expr)} : t.kind = .function →
      Builtin.ofName? t.text = some function → opening.isDelimiter "(" →
      (∀ argument ∈ arguments, Derives names .assignment argument.1 argument.2) →
      Listed (arguments.map (·.1)) ts → closing.isDelimiter ")" →
      CallNode function (arguments.map (·.2)) t.location e →
      Derives names .operand (t :: opening :: ts ++ [closing]) e
  | print {arguments : List (List Token × Expr)} : t.kind = .function → t.text = "print" →
      opening.isDelimiter "(" →
      (∀ argument ∈ arguments, Derives names .argument argument.1 argument.2) →
      Listed (arguments.map (·.1)) ts → closing.isDelimiter ")" →
      Derives names .operand (t :: opening :: ts ++ [closing])
        (.print (arguments.map (·.2)) t.location)

/-- An operand is an expression of every level above it. -/
theorem Derives.disjunction_of_operand (h : Derives names .operand ts e) :
    Derives names .disjunction ts e :=
  .tighter rfl <| .tighter rfl <| .tighter rfl <| .tighter rfl <| .tighter rfl <|
    .tighter rfl <| .tighter rfl <| .tighter rfl h

theorem Derives.of_operand (h : Derives names .operand ts e) : Derives names .assignment ts e :=
  .tighter rfl h.disjunction_of_operand

/-- The name `if` and three arguments in parentheses are a conditional. -/
theorem Derives.conditional {name opening comma comma' closing : Token}
    (hk : name.kind = .function) (hn : name.text = "if") (ho : opening.isDelimiter "(")
    (h : Derives names .assignment ts test) (hc : comma.isDelimiter ",")
    (h₁ : Derives names .assignment us yes) (hc' : comma'.isDelimiter ",")
    (h₂ : Derives names .assignment vs no) (hcl : closing.isDelimiter ")") :
    Derives names .operand (name :: opening :: (ts ++ comma :: (us ++ comma' :: vs)) ++ [closing])
      (.conditional test yes no name.location) := by
  let arguments := [(ts, test), (us, yes), (vs, no)]
  have hd : ∀ argument ∈ arguments, Derives names .assignment argument.1 argument.2 := by
    simpa [arguments] using ⟨h, h₁, h₂⟩
  have hl : Listed (arguments.map (·.1)) (ts ++ comma :: (us ++ comma' :: vs)) :=
    .cons hc (.cons hc' .last)
  have hf : Builtin.ofName? name.text = some .conditional := by
    rw [hn]
    rfl
  exact .call hk hf ho hd hl hcl .conditional

/-! ## The first token -/

/-- What is known of the first token of a level. -/
structure Starts (ℓ : Level) (t : Token) : Prop where
  isFinish : t.isFinish = false
  kind : ℓ ≠ .argument → t.kind ≠ .string
  delimiter : ∀ s, t.isDelimiter s → s = "(" ∨ ℓ ≠ .operand ∧ s ∈ signs

theorem Starts.of_kind (h : t.kind ≠ .delimiter) (hf : t.kind ≠ .finish)
    (hs : ℓ ≠ .argument → t.kind ≠ .string) : Starts ℓ t where
  isFinish := Token.isFinish_eq_false hf
  kind := hs
  delimiter _ hd := absurd (Token.isDelimiter_iff.1 hd).1 h

theorem Starts.of_sign (h : t.isDelimiter s) (hs : s ∈ signs) : Starts .signed t where
  isFinish := Token.isFinish_eq_false (by simp [(Token.isDelimiter_iff.1 h).1])
  kind _ := by simp [(Token.isDelimiter_iff.1 h).1]
  delimiter s' h' := .inr ⟨nofun, Token.isDelimiter_unique h' h ▸ hs⟩

theorem Starts.of_opening (h : t.isDelimiter "(") : Starts .operand t where
  isFinish := Token.isFinish_eq_false (by simp [(Token.isDelimiter_iff.1 h).1])
  kind _ := by simp [(Token.isDelimiter_iff.1 h).1]
  delimiter _ h' := .inl (Token.isDelimiter_unique h' h)

theorem Starts.looser (h : Starts ℓ' t) (hℓ : ℓ.tighter? = some ℓ') : Starts ℓ t where
  isFinish := h.isFinish
  kind _ := h.kind (by cases ℓ <;> cases hℓ <;> nofun)
  delimiter s hs := (h.delimiter s hs).imp_right fun hs => ⟨(by subst ·; cases hℓ), hs.2⟩

theorem Derives.starts (h : Derives names ℓ ts e) : ∃ t us, ts = t :: us ∧ Starts ℓ t := by
  induction h with
  | tighter hℓ _ ih =>
    obtain ⟨t, us, rfl, h⟩ := ih
    exact ⟨t, us, rfl, h.looser hℓ⟩
  | string hk => exact ⟨_, _, rfl, .of_kind (by simp [hk]) (by simp [hk]) (absurd rfl)⟩
  | assign _ _ _ _ ih | update _ _ _ _ _ ih | binary _ _ _ _ _ ih =>
    obtain ⟨t, us, rfl, h⟩ := ih
    exact ⟨t, _, List.cons_append, h⟩
  | plus hd | minus hd | increment hd | decrement hd =>
    exact ⟨_, _, rfl, .of_sign hd (by simp [signs])⟩
  | group hd => exact ⟨_, _, rfl, .of_opening hd⟩
  | number hk | pi hk | slot hk | call hk | print hk =>
    exact ⟨_, _, rfl, .of_kind (by simp [hk]) (by simp [hk]) (by simp [hk])⟩

theorem CallNode.isVariable (h : CallNode function es l e) : e.isVariable = false := by
  cases h <;> rfl

/-- A variable does not start with a function. -/
theorem Derives.starts_of_isVariable (h : Derives names ℓ ts e) (hv : e.isVariable) :
    ∃ t us, ts = t :: us ∧ t.kind ≠ .function := by
  induction h with
  | tighter _ _ ih => exact ih hv
  | plus hd | group hd => exact ⟨_, _, rfl, by simp [(Token.isDelimiter_iff.1 hd).1]⟩
  | slot hk => exact ⟨_, _, rfl, by simp [hk]⟩
  | call _ _ _ _ _ _ he => simp [he.isVariable] at hv
  | string | assign | update | binary | minus | increment | decrement | number | pi | print =>
    cases hv

theorem Derives.ne_nil (h : Derives names ℓ ts e) : ts ≠ [] := by
  obtain ⟨t, us, rfl, -⟩ := h.starts
  simp

theorem Listed.forall {p : Token → Prop} (hl : Listed parts ts)
    (hc : ∀ t : Token, t.isDelimiter "," → p t) (hp : ∀ part ∈ parts, ∀ t ∈ part, p t) :
    ∀ t ∈ ts, p t := by
  induction hl with
  | last => exact hp _ List.mem_cons_self
  | cons hd _ ih =>
    obtain ⟨hp, hps⟩ := List.forall_mem_cons.1 hp
    exact List.forall_mem_append.2 ⟨hp, List.forall_mem_cons.2 ⟨hc _ hd, ih hps⟩⟩

/-- No token of an expression is unknown or the end of the text. -/
theorem Derives.known (h : Derives names ℓ ts e) :
    ∀ t ∈ ts, t.kind ≠ .unknown ∧ t.kind ≠ .finish := by
  have hdel {t : Token} {s : String} (h : t.isDelimiter s) :
      t.kind ≠ .unknown ∧ t.kind ≠ .finish := by simp [(Token.isDelimiter_iff.1 h).1]
  induction h with
  | tighter _ _ ih => exact ih
  | string hk | number hk | pi hk | slot hk => exact List.forall_mem_singleton.2 (by simp [hk])
  | assign _ _ hd _ ih₁ ih₂ | update _ _ _ hd _ ih₁ ih₂ | binary _ _ hd _ _ ih₁ ih₂ =>
    exact List.forall_mem_append.2 ⟨ih₁, List.forall_mem_cons.2 ⟨hdel hd, ih₂⟩⟩
  | plus hd _ ih | minus hd _ ih | increment hd _ _ ih | decrement hd _ _ ih =>
    exact List.forall_mem_cons.2 ⟨hdel hd, ih⟩
  | group ho _ hc ih =>
    exact List.forall_mem_append.2
      ⟨List.forall_mem_cons.2 ⟨hdel ho, ih⟩, List.forall_mem_singleton.2 (hdel hc)⟩
  | call hk _ ho _ hl hc _ ih | print hk _ ho _ hl hc ih =>
    have hts := hl.forall (p := fun t => t.kind ≠ .unknown ∧ t.kind ≠ .finish) (fun _ => hdel)
      (by simpa using ih)
    exact List.forall_mem_append.2 ⟨List.forall_mem_cons.2 ⟨by simp [hk],
      List.forall_mem_cons.2 ⟨hdel ho, hts⟩⟩, List.forall_mem_singleton.2 (hdel hc)⟩

theorem Derives.isFinish (h : Derives names ℓ ts e) : ∀ t ∈ ts, t.isFinish = false :=
  fun t ht => Token.isFinish_eq_false (h.known t ht).2

/-- After a name at its start an expression goes on with an operator. -/
theorem Derives.second (h : Derives names ℓ ts e) :
    ∀ t u us, ts = t :: u :: us → t.kind = .name → u.kind = .delimiter := by
  have hdel {t : Token} {s : String} (h : t.isDelimiter s) : t.kind = .delimiter :=
    (Token.isDelimiter_iff.1 h).1
  have between {ts us : List Token} {v : Token} (hne : ts ≠ []) (hv : v.kind = .delimiter)
      (ih : ∀ t u us, ts = t :: u :: us → t.kind = .name → u.kind = .delimiter) :
      ∀ t u us', ts ++ v :: us = t :: u :: us' → t.kind = .name → u.kind = .delimiter := by
    intro t u us' he hk
    -- the second token is the one between only if a single token is in front of it
    match ts, hne, he with
    | [_], _, he =>
      cases he
      exact hv
    | t :: u :: ts, _, he =>
      cases he
      exact ih t u ts rfl hk
  induction h with
  | tighter _ _ ih => exact ih
  | string | number | pi | slot => exact fun _ _ _ he => by cases he
  | assign hts _ hd _ ih | update hts _ _ hd _ ih | binary hts _ hd _ _ ih =>
    exact between hts.ne_nil (hdel hd) ih
  | plus hd | minus hd | increment hd | decrement hd | group hd =>
    intro t u us he hk
    obtain ⟨rfl, -⟩ := List.cons.inj he
    rw [hdel hd] at hk
    cases hk
  | call hf | print hf =>
    intro t u us he hk
    obtain ⟨rfl, -⟩ := List.cons.inj he
    rw [hf] at hk
    cases hk

/-! ## More variables -/

theorem Derives.mono (hn : names <+: names') (h : Derives names ℓ ts e) :
    Derives names' ℓ ts e := by
  induction h with
  | tighter hℓ _ ih => exact .tighter hℓ ih
  | string hk => exact .string hk
  | assign _ ht hd _ ih₁ ih₂ => exact .assign ih₁ ht hd ih₂
  | update _ ht hop hd _ ih₁ ih₂ => exact .update ih₁ ht hop hd ih₂
  | binary _ hop hd hℓ _ ih₁ ih₂ => exact .binary ih₁ hop hd hℓ ih₂
  | plus hd _ ih => exact .plus hd ih
  | minus hd _ ih => exact .minus hd ih
  | increment hd _ hv ih => exact .increment hd ih hv
  | decrement hd _ hv ih => exact .decrement hd ih hv
  | group ho _ hc ih => exact .group ho ih hc
  | number hk => exact .number hk
  | pi hk ht => exact .pi hk ht
  | slot hk ht hi => exact .slot hk ht (Variables.idxOf?_of_prefix hn hi)
  | call hk hf ho _ hs hc he ih => exact .call hk hf ho ih hs hc he
  | print hk ht ho _ hs hc ih => exact .print hk ht ho ih hs hc

end FormulaScript.Expr
