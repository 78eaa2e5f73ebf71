import FormulaScript.Proofs.Expr.Grammar
import FormulaScript.Proofs.Expr.Reading
import Mathlib.Data.List.Basic

/-!
# Soundness of reading

Every expression that is read derives from the tokens that were taken for it, and every failure has
been reported. `Sound ℓ step` says so of a step that reads the expressions of a level; it is proved
for each step of the grammar from the steps that it is made of. It needs nothing but that the
tokens are regular, as those of every text without lexical faults are.
-/

namespace FormulaScript

/-! ## Progress -/

/-- What every step keeps of a reader: tokens are only taken from the front, variables and
diagnostics are only added, and variables only if that is allowed and for names among the tokens. -/
structure Reader.Goes (reader left : Reader) : Prop where
  rest : left.rest <:+ reader.rest
  vars : reader.vars.Extends left.vars
  fixed : reader.autoAdd = false → left.vars = reader.vars
  named : ∀ name ∈ left.vars.names,
    name ∈ reader.vars.names ∨ ∃ t ∈ reader.rest, t.kind = .name ∧ t.text = name
  autoAdd : left.autoAdd = reader.autoAdd
  diagnostics : reader.diagnostics <+: left.diagnostics

/-- A step from one reader to the other has reported a fault. -/
structure Reader.Fails (reader left : Reader) : Prop extends Reader.Goes reader left where
  reported : reader.diagnostics.length < left.diagnostics.length

namespace Reader

variable {reader left last : Reader}

theorem Goes.refl (reader : Reader) : reader.Goes reader :=
  ⟨List.suffix_rfl, .refl _, fun _ => rfl, fun _ => .inl, rfl, List.prefix_rfl⟩

theorem Goes.trans (h : reader.Goes left) (h' : left.Goes last) : reader.Goes last where
  rest := h'.rest.trans h.rest
  vars := h.vars.trans h'.vars
  fixed hf := (h'.fixed (h.autoAdd.trans hf)).trans (h.fixed hf)
  named name hm := by
    rcases h'.named name hm with hm | ⟨t, ht, hk⟩
    · exact h.named name hm
    · exact .inr ⟨t, h.rest.subset ht, hk⟩
  autoAdd := h'.autoAdd.trans h.autoAdd
  diagnostics := h.diagnostics.trans h'.diagnostics

theorem Goes.skip (reader : Reader) : reader.Goes reader.skip :=
  { Goes.refl reader with rest := List.tail_suffix _ }

theorem Goes.report (problem : Problem) (token : Token) (reader : Reader) :
    reader.Goes (reader.report problem token) :=
  { Goes.refl reader with diagnostics := List.prefix_append _ _ }

theorem Goes.fails (h : reader.Goes left) (h' : left.Fails last) : reader.Fails last where
  toGoes := h.trans h'.toGoes
  reported := Nat.lt_of_le_of_lt h.diagnostics.length_le h'.reported

theorem Fails.goes (h : reader.Fails left) (h' : left.Goes last) : reader.Fails last where
  toGoes := h.toGoes.trans h'
  reported := Nat.lt_of_lt_of_le h.reported h'.diagnostics.length_le

theorem Fails.report (problem : Problem) (token : Token) (reader : Reader) :
    reader.Fails (reader.report problem token) where
  toGoes := .report problem token reader
  reported := by simp [Reader.report]

theorem rest_eq_of_next {p : Token → Prop} (h : p reader.next) (hf : ¬ p Reader.finish) :
    reader.rest = reader.next :: reader.skip.rest := by
  unfold next at h ⊢
  unfold skip
  cases hr : reader.rest with
  | nil => simp_all
  | cons t rest => simp

theorem rest_eq_of_isDelimiter (h : reader.next.isDelimiter s) :
    reader.rest = reader.next :: reader.skip.rest :=
  rest_eq_of_next (p := (·.isDelimiter s)) h nofun

theorem rest_eq_of_kind (h : reader.next.kind = k) (hk : k ≠ .finish) :
    reader.rest = reader.next :: reader.skip.rest :=
  rest_eq_of_next (p := (·.kind = k)) h hk.symm

def before (ts : List Token) (reader : Reader) : Reader := { reader with rest := ts ++ reader.rest }

theorem Goes.before (ts : List Token) (reader : Reader) : (reader.before ts).Goes reader :=
  { Goes.refl reader with rest := List.suffix_append _ _, named := fun _ => .inl }

end Reader

/-! ## Sound steps -/

namespace Expr

open Read

/-- What reading a level leaves of a reader: an expression that derives from the tokens that were
taken, with nothing reported, or no expression, with a fault reported. -/
def Reads (ℓ : Level) (reader : Reader) : Option Expr → Reader → Prop
  | some e, left => reader.Goes left ∧ left.diagnostics = reader.diagnostics ∧
      ∃ ts, reader.rest = ts ++ left.rest ∧ Derives left.vars.names ℓ ts e
  | none, left => reader.Fails left

/-- The step reads expressions of the level. -/
def Sound (ℓ : Level) (step : Read (Option Expr)) : Prop :=
  ∀ reader, Token.Regular reader.rest → step.Ends reader (Reads ℓ reader) reader.Fails

theorem Reads.goes (h : Reads ℓ reader e left) : reader.Goes left := by
  cases e with
  | none => exact h.toGoes
  | some _ => exact h.1

/-- Reading may as well have started at a reader with the same tokens and diagnostics. -/
theorem Reads.of_eq (h : Reads ℓ start e left) (hg : reader.Goes start)
    (hr : start.rest = reader.rest) (hd : start.diagnostics = reader.diagnostics) :
    Reads ℓ reader e left := by
  cases e with
  | none => exact hg.fails h
  | some e =>
    obtain ⟨hg', hd', ts, hr', he⟩ := h
    exact ⟨hg.trans hg', hd'.trans hd, ts, hr ▸ hr', he⟩

theorem Reads.tighter (hℓ : ℓ.tighter? = some ℓ') (h : Reads ℓ' reader e left) :
    Reads ℓ reader e left := by
  cases e with
  | none => exact h
  | some e =>
    obtain ⟨hg, hd, ts, hr, he⟩ := h
    exact ⟨hg, hd, ts, hr, .tighter hℓ he⟩

/-! ## Levels of operators -/

theorem operator?_eq_some (h : operator? table t = some op) :
    ∃ symbol, (symbol, op) ∈ table ∧ t.isDelimiter symbol := by
  simp only [operator?, Option.map_eq_some_iff] at h
  obtain ⟨⟨symbol, op'⟩, hf, rfl⟩ := h
  exact ⟨symbol, List.mem_of_find?_eq_some hf, by simpa using List.find?_some hf⟩

section

variable {table : List (String × α)} {check : Token → Option Expr → Read Unit}
  {join : α → Location → Expr → Expr → Expr} {operand : Read (Option Expr)} {ok : Expr → Prop}

/-- The rule by which a level joins its operands: `ok` is what `check` asks of the left one. -/
structure Joins (ℓ ℓ' : Level) (table : List (String × α))
    (check : Token → Option Expr → Read Unit) (join : α → Location → Expr → Expr → Expr)
    (ok : Expr → Prop) : Prop where
  tighter : ℓ.tighter? = some ℓ'
  check : ∀ t left reader, (check t left).Ends reader
    (fun _ last => last = reader ∧ ∀ e, left = some e → ok e) reader.Fails
  derives : ∀ {names ts left t us right symbol op}, Derives names ℓ ts left → ok left →
    (symbol, op) ∈ table → t.isDelimiter symbol → Derives names ℓ' us right →
    Derives names ℓ (ts ++ t :: us) (join op t.location left right)

theorem Joins.reads (hj : Joins ℓ ℓ' table check join ok) (hl : Reads ℓ start left reader)
    (hop : operator? table reader.next = some op) (hok : ∀ e, left = some e → ok e)
    (hr : Reads ℓ' reader.skip right last) :
    Reads ℓ start (join op reader.next.location <$> left <*> right) last := by
  cases left with
  | none => exact Reader.Fails.goes hl ((Reader.Goes.skip _).trans hr.goes)
  | some e =>
    cases right with
    | none => exact (hl.1.trans (.skip _)).fails hr
    | some e' =>
      obtain ⟨hg, hd, ts, hrest, he⟩ := hl
      obtain ⟨hg', hd', us, hrest', he'⟩ := hr
      obtain ⟨symbol, hm, hs⟩ := operator?_eq_some hop
      refine ⟨(hg.trans (.skip _)).trans hg', hd'.trans hd, ts ++ reader.next :: us, ?_, ?_⟩
      · rw [hrest, Reader.rest_eq_of_isDelimiter hs, hrest']
        simp
      · exact hj.derives (he.mono hg'.vars.isPrefix) (hok e rfl) hm hs he'

/-- The induction is on the rounds; what is kept is that the left operand has been read from
`start`. -/
theorem Sound.chain (hj : Joins ℓ ℓ' table check join ok) (hp : Sound ℓ' operand) {rounds : Nat}
    {start reader : Reader} {left : Option Expr} (ht : Token.Regular reader.rest)
    (hl : Reads ℓ start left reader) :
    (chain table check join operand rounds left).Ends reader (Reads ℓ start) start.Fails := by
  induction rounds generalizing reader left with
  | zero => exact hl
  | succ rounds ih =>
    simp only [Expr.chain, ends_bind, ends_peek]
    cases hop : operator? table reader.next with
    | none => exact hl
    | some op =>
      simp only [ends_bind, ends_take]
      refine (hj.check reader.next left reader.skip).mono ?_ fun last h =>
        hl.goes.fails ((Reader.Goes.skip _).fails h)
      rintro _ _ ⟨rfl, hok⟩
      have hs : Token.Regular reader.skip.rest := ht.suffix (List.tail_suffix _)
      refine (hp reader.skip hs).mono ?_ fun last h => hl.goes.fails ((Reader.Goes.skip _).fails h)
      intro right last hr
      exact ih (hs.suffix hr.goes.rest) (hj.reads hl hop hok hr)

theorem Sound.level (hj : Joins ℓ ℓ' table check join ok) (hp : Sound ℓ' operand) :
    Sound ℓ (level table check join operand) := by
  intro reader ht
  simp only [Expr.level, ends_bind, ends_get]
  refine (hp reader ht).mono ?_ fun _ h => h
  intro left last hl
  exact hp.chain hj (ht.suffix hl.goes.rest) (hl.tighter hj.tighter)

end

theorem joins_binary (hℓ : ℓ.tighter? = some ℓ') :
    Joins ℓ ℓ' ℓ.operators (fun _ _ => pure ())
      (fun op location left right => .binary op left right location) fun _ => True where
  tighter := hℓ
  check _ _ _ := ⟨rfl, fun _ _ => trivial⟩
  derives hl _ hm hs hr := .binary hl hm hs hℓ hr

theorem joins_assignment :
    Joins .assignment .disjunction assignments checkTarget joinAssignment (·.isAssignable) where
  tighter := rfl
  check t left reader := by
    unfold checkTarget
    split
    · exact .report _ _ _
    · next h => exact ⟨rfl, by rintro e rfl; simpa using h⟩
  derives hl hok hm hs hr := by
    simp only [assignments, List.mem_cons, Prod.mk.injEq, List.not_mem_nil, or_false] at hm
    rcases hm with ⟨rfl, rfl⟩ | ⟨rfl, rfl⟩ | ⟨rfl, rfl⟩ | ⟨rfl, rfl⟩ | ⟨rfl, rfl⟩
    · exact .assign hl hok hs hr
    all_goals exact .update hl hok (by simp [Level.updates]) hs hr

theorem Sound.operations (hp : Sound .signed operand) :
    Sound .disjunction (operations operand binaryLevels) :=
  .level (joins_binary rfl) <| .level (joins_binary rfl) <| .level (joins_binary rfl) <|
    .level (joins_binary rfl) <| .level (joins_binary rfl) <| .level (joins_binary rfl) <|
    .level (joins_binary rfl) hp

/-! ## Signs -/

theorem Sound.applySign {sign : Token} (hs : signs.any sign.isDelimiter)
    (h : Reads .signed reader e last) : (applySign sign e).Ends last
      (Reads .signed (reader.before [sign])) (reader.before [sign]).Fails := by
  obtain ⟨symbol, hm, hd⟩ := List.any_eq_true.1 hs
  have ht : sign.text = symbol := (Token.isDelimiter_iff.1 hd).2
  cases e with
  | none => exact (Reader.Goes.before _ _).fails h
  | some e =>
    obtain ⟨hg, hdiag, ts, hr, he⟩ := h
    have reads {e' : Expr} (he' : Derives last.vars.names .signed (sign :: ts) e') :
        Reads .signed (reader.before [sign]) (some e') last :=
      ⟨(Reader.Goes.before _ _).trans hg, hdiag, sign :: ts, by simp [Reader.before, hr], he'⟩
    simp only [signs, List.mem_cons, List.not_mem_nil, or_false] at hm
    simp only [Expr.applySign]
    rcases hm with rfl | rfl | rfl | rfl
    · by_cases hv : e.isVariable
      · simpa [ht, hv] using reads (.increment hd he hv)
      · simpa [ht, hv] using ((Reader.Goes.before _ _).trans hg).fails (.report _ _ _)
    · by_cases hv : e.isVariable
      · simpa [ht, hv] using reads (.decrement hd he hv)
      · simpa [ht, hv] using ((Reader.Goes.before _ _).trans hg).fails (.report _ _ _)
    · simpa [ht] using reads (.plus hd he)
    · simpa [ht] using reads (.minus hd he)

theorem Sound.applySigns {run : List Token} (hs : ∀ t ∈ run, signs.any t.isDelimiter)
    (h : Reads .signed reader e last) : (applySigns run e).Ends last
      (Reads .signed (reader.before run)) (reader.before run).Fails := by
  induction run with
  | nil => exact h
  | cons sign run ih =>
    simp only [Expr.applySigns, ends_bind]
    refine (ih fun t ht => hs t (List.mem_cons_of_mem _ ht)).mono ?_ fun last h =>
      (Reader.Goes.before [sign] (reader.before run)).fails h
    intro e last h
    exact Sound.applySign (hs sign List.mem_cons_self) h

theorem Sound.signed (hp : Sound .operand operand) : Sound .signed (signed operand) := by
  intro reader ht
  simp only [Expr.signed, takeSigns, ends_bind, ends_get, ends_modify, ends_pure]
  let run := reader.rest.takeWhile fun token => signs.any token.isDelimiter
  let start : Reader := { reader with
    rest := reader.rest.drop run.length, position := reader.position + run.length }
  have hsplit : run ++ start.rest = reader.rest :=
    List.prefix_iff_eq_append.1 (List.takeWhile_prefix _)
  have hg : reader.Goes (start.before run) :=
    { Reader.Goes.refl reader with rest := hsplit ▸ List.suffix_rfl }
  refine (hp start (ht.suffix (List.drop_suffix _ _))).mono ?_ fun last h =>
    hg.fails ((Reader.Goes.before run start).fails h)
  intro e last h
  have hsigns : ∀ t ∈ run, signs.any t.isDelimiter := List.all_eq_true.1 List.all_takeWhile
  refine (Sound.applySigns hsigns (h.tighter rfl)).mono ?_ fun last h => hg.fails h
  exact fun e last h => h.of_eq hg hsplit rfl

/-! ## Names -/

theorem Derives.of_constant (hk : t.kind = .name) (h : constants.lookup t.text = some value) :
    Derives names .operand [t] (.literal value t.location) := by
  simp only [constants, List.lookup_cons, List.lookup_nil] at h
  split at h
  · cases h
    exact .pi hk (by simpa using ‹(t.text == "PI") = true›)
  · cases h

theorem eq_pi_of_lookup (h : constants.lookup name = some value) : name = "PI" := by
  simp only [constants, List.lookup_cons, List.lookup_nil] at h
  split at h
  · simpa using ‹(name == "PI") = true›
  · cases h

theorem ne_pi_of_lookup (h : constants.lookup name = none) : name ≠ "PI" := by
  rintro rfl
  simp [constants] at h

theorem Sound.resolve (hk : reader.next.kind = .name) :
    (resolve reader.next).Ends reader.skip (Reads .operand reader) reader.Fails := by
  have hrest := reader.rest_eq_of_kind hk (by simp)
  have hg := Reader.Goes.skip reader
  cases hc : constants.lookup reader.next.text with
  | some value =>
    simp only [Expr.resolve, hc, ends_pure]
    exact ⟨hg, rfl, _, hrest, .of_constant hk hc⟩
  | none =>
    have hpi := ne_pi_of_lookup hc
    simp only [Expr.resolve, hc, ends_bind, ends_get]
    cases hi : reader.skip.vars.indexOf? reader.next.text with
    | some index => exact ⟨hg, rfl, _, hrest, .slot hk hpi hi⟩
    | none =>
      by_cases ha : reader.skip.autoAdd
      · rw [if_pos ha]
        have hg' : reader.Goes { reader.skip with
            vars := (reader.skip.vars.add reader.next.text).2 } :=
          { hg with
            vars := Variables.extends_add _ _
            fixed := fun hf => absurd ha (by simp [hf, Reader.skip])
            named := fun name hm => (Variables.mem_names_of_add hm).imp_right fun he =>
              ⟨reader.next, by rw [hrest]; exact List.mem_cons_self, hk, he.symm⟩ }
        cases hadd : (reader.skip.vars.add reader.next.text).1 with
        | some index => exact ⟨hg', rfl, _, hrest, .slot hk hpi (Variables.idxOf?_of_add hadd)⟩
        | none => exact hg'.fails (.report _ _ _)
      · rw [if_neg ha]
        exact hg.fails (.report _ _ _)

/-! ## Calls -/

/-- What reading arguments leaves of a reader: their tokens, listed, if all of them are there, or a
fault reported. -/
def ReadsAll (ℓ : Level) (reader : Reader) (arguments : List (Option Expr)) (left : Reader) :
    Prop :=
  (none ∈ arguments ∧ reader.Fails left) ∨
    reader.Goes left ∧ left.diagnostics = reader.diagnostics ∧
      ∃ (derived : List (List Token × Expr)) (ts : List Token),
        arguments = derived.map (some ·.2) ∧ reader.rest = ts ++ left.rest ∧
        Listed (derived.map (·.1)) ts ∧
        ∀ argument ∈ derived, Derives left.vars.names ℓ argument.1 argument.2

theorem ReadsAll.goes (h : ReadsAll ℓ reader es left) : reader.Goes left := by
  rcases h with ⟨-, h⟩ | ⟨h, -⟩
  · exact h.toGoes
  · exact h

theorem Reads.singleton (h : Reads ℓ reader e left) : ReadsAll ℓ reader [e] left := by
  cases e with
  | none => exact .inl ⟨List.mem_singleton_self _, h⟩
  | some e =>
    obtain ⟨hg, hd, ts, hr, he⟩ := h
    exact .inr ⟨hg, hd, [(ts, e)], ts, rfl, hr, .last, by simpa using he⟩

theorem Reads.cons (h : Reads ℓ reader e left) (hc : left.next.isDelimiter ",")
    (hs : ReadsAll ℓ left.skip es last) : ReadsAll ℓ reader (e :: es) last := by
  have hg := (Reader.Goes.skip left).trans hs.goes
  cases e with
  | none => exact .inl ⟨List.mem_cons_self, Reader.Fails.goes h hg⟩
  | some e =>
    obtain ⟨hg', hd, ts, hr, he⟩ := h
    rcases hs with ⟨hn, hf⟩ | ⟨-, hd', derived, us, rfl, hr', hl, hds⟩
    · exact .inl ⟨List.mem_cons_of_mem _ hn, (hg'.trans (.skip _)).fails hf⟩
    · refine .inr ⟨hg'.trans hg, hd'.trans hd, (ts, e) :: derived, ts ++ left.next :: us, rfl, ?_,
        .cons hc hl, ?_⟩
      · rw [hr, left.rest_eq_of_isDelimiter hc, hr']
        simp
      · simp only [List.forall_mem_cons]
        exact ⟨he.mono hg.vars.isPrefix, hds⟩

theorem Sound.arguments (hp : Sound .assignment p) {missing : Nat} {reader : Reader}
    (hm : 0 < missing) (ht : Token.Regular reader.rest) :
    (arguments p problem missing).Ends reader
      (fun es left => ReadsAll .assignment reader es left ∧ es.length ≤ missing) reader.Fails := by
  induction missing generalizing reader with
  | zero => omega
  | succ missing ih =>
    simp only [Expr.arguments, ends_bind, ends_sees]
    split
    · exact .report _ _ _
    · rw [ends_bind]
      refine (hp reader ht).mono ?_ fun _ h => h
      intro e left h
      by_cases hm' : missing = 0
      · simpa [hm'] using h.singleton
      · simp only [hm', if_false, ends_bind, ends_accept]
        by_cases hc : left.next.isDelimiter ","
        · have hs : Token.Regular left.skip.rest :=
            ht.suffix ((List.tail_suffix _).trans h.goes.rest)
          simp only [hc, if_true, ends_bind, ends_pure]
          refine (ih (Nat.pos_of_ne_zero hm') hs).mono ?_ fun _ hf =>
            (h.goes.trans (.skip _)).fails hf
          exact fun es last hes => ⟨h.cons hc hes.1, Nat.succ_le_succ hes.2⟩
        · simpa [hc] using h.singleton

theorem Sound.printArguments (hp : Sound .assignment p) {rounds : Nat} {reader : Reader}
    (ht : Token.Regular reader.rest) :
    (printArguments p rounds).Ends reader (ReadsAll .argument reader) reader.Fails := by
  induction rounds generalizing reader with
  | zero => exact .report _ _ _
  | succ rounds ih =>
    have more {e : Option Expr} {left : Reader} (h : Reads .argument reader e left) :
        Ends (do
          if ← accept "," then return e :: (← Expr.printArguments p rounds)
          return [e]) left (ReadsAll .argument reader) reader.Fails := by
      simp only [ends_bind, ends_accept]
      by_cases hc : left.next.isDelimiter ","
      · have hs : Token.Regular left.skip.rest :=
          ht.suffix ((List.tail_suffix _).trans h.goes.rest)
        simp only [hc, if_true, ends_bind, ends_pure]
        refine (ih hs).mono ?_ fun _ hf => (h.goes.trans (.skip _)).fails hf
        exact fun es last hes => h.cons hc hes
      · simpa [hc] using h.singleton
    simp only [Expr.printArguments]
    rw [ends_bind, ends_peek]
    split
    · next hk =>
      rw [ends_bind, ends_modify, ends_bind, ends_pure]
      exact more ⟨.skip reader, rfl, _, reader.rest_eq_of_kind hk (by simp), .string hk⟩
    · rw [ends_bind]
      exact (hp reader ht).mono (fun _ _ h => more (h.tighter rfl)) fun _ h => h

/-- A call is read once its arguments and the closing parenthesis are. -/
theorem ReadsAll.close (h : ReadsAll ℓ start es left) (hc : left.next.isDelimiter ")")
    (hg : reader.Goes start) (hd : start.diagnostics = reader.diagnostics)
    (hr : reader.rest = t :: opening :: start.rest) {build : List Expr → Option Expr}
    (hb : ∀ (derived : List (List Token × Expr)) (ts : List Token),
      es.length = derived.length → Listed (derived.map (·.1)) ts →
      (∀ argument ∈ derived, Derives left.vars.names ℓ argument.1 argument.2) →
      ∃ e, build (derived.map (·.2)) = some e ∧
        Derives left.vars.names .operand (t :: opening :: ts ++ [left.next]) e) :
    Reads .operand reader ((es.mapM id).bind build) left.skip := by
  rcases h with ⟨hn, hf⟩ | ⟨hg', hd', derived, ts, rfl, hr', hl, hds⟩
  · rw [mapM_id_of_mem hn]
    exact (hg.fails hf).goes (.skip _)
  · obtain ⟨e, he, hd''⟩ := hb derived ts (by simp) hl hds
    rw [mapM_id_map_some, Option.bind_some, he]
    refine ⟨(hg.trans hg').trans (.skip _), hd'.trans hd, _, ?_, hd''⟩
    rw [hr, hr', left.rest_eq_of_isDelimiter hc]
    simp

theorem CallNode.length_eq (h : CallNode function es l e) : es.length = function.arity := by
  cases h <;> rfl

theorem CallNode.ofCall_eq (h : CallNode function es l e) : ofCall function es l = some e := by
  cases h <;> rfl

/-- With as many arguments as the function takes a call is made. -/
theorem exists_callNode (function : Builtin) {arguments : List Expr}
    (h : arguments.length = function.arity) (location : Location) :
    ∃ e, CallNode function arguments location e := by
  cases function with
  | unary op =>
    obtain ⟨operand, rfl⟩ := List.length_eq_one_iff.1 h
    exact ⟨_, .unary⟩
  | binary op =>
    obtain ⟨left, right, rfl⟩ := List.length_eq_two.1 h
    exact ⟨_, .binary⟩
  | conditional =>
    obtain ⟨test, yes, no, rfl⟩ := List.length_eq_three.1 h
    exact ⟨_, .conditional⟩

theorem arity_pos (function : Builtin) : 0 < function.arity := by
  cases function <;> simp [Builtin.arity]

theorem Sound.call (hp : Sound .assignment p) (hk : reader.next.kind = .function)
    (ht : Token.Regular reader.rest) :
    (call p).Ends reader (Reads .operand reader) reader.Fails := by
  have hr := reader.rest_eq_of_kind hk (by simp)
  have hsuffix : reader.next :: reader.skip.rest <:+ reader.rest := hr ▸ List.suffix_rfl
  -- the parenthesis is skipped unseen: that it is one is what regular tokens are for
  obtain ⟨opening, us, hs, ho⟩ := ht.opening _ _ hsuffix hk
  have hr' : reader.rest = reader.next :: opening :: reader.skip.skip.rest := by
    rw [hr]
    simp only [Reader.skip] at hs ⊢
    rw [hs, List.tail_cons]
  have hg : reader.Goes reader.skip.skip := (Reader.Goes.skip _).trans (.skip _)
  have ht' := ht.suffix hg.rest
  simp only [Expr.call, ends_bind, ends_take]
  split
  · next hprint =>
    simp only [ends_bind, ends_modify, ends_get, ends_pure, ends_close]
    refine (Sound.printArguments hp ht').mono ?_ fun _ h => hg.fails h
    intro es left h
    split
    · next hc =>
      rw [Option.map_eq_bind]
      refine h.close hc hg rfl hr' fun derived ts _ hl hds => ⟨_, rfl, ?_⟩
      exact .print hk hprint ho hds hl hc
    · exact (hg.trans h.goes).fails (.report _ _ _)
  · cases hf : Builtin.ofName? reader.next.text with
    | none => exact (Reader.Goes.skip _).fails (.report _ _ _)
    | some function =>
      simp only [ends_bind, ends_modify]
      refine (Sound.arguments hp (arity_pos function) ht').mono ?_ fun _ h => hg.fails h
      rintro es left ⟨h, hlen⟩
      have hfail {problem : Problem} {token : Token} : reader.Fails (left.report problem token) :=
        (hg.trans h.goes).fails (.report _ _ _)
      split
      · rw [ends_bind, ends_sees]
        split
        · exact hfail
        · next hc => simpa [hc] using hfail
      · next hmin =>
        rw [ends_bind, ends_close]
        split
        · next hc =>
          refine h.close hc hg rfl hr' fun derived ts hlen' hl hds => ?_
          have harity : derived.length = function.arity := by omega
          obtain ⟨e, he⟩ := exists_callNode function
            ((List.length_map Prod.snd).trans harity) reader.next.location
          exact ⟨e, he.ofCall_eq, .call hk hf ho hds hl hc he⟩
        · exact hfail

/-! ## Operands and expressions -/

theorem Sound.primary (hp : Sound .assignment p) (ht : Token.Regular reader.rest) :
    (primary p).Ends reader (Reads .operand reader) reader.Fails := by
  simp only [Expr.primary, ends_bind, ends_peek]
  split
  · next value? hk =>
    have hr := reader.rest_eq_of_kind hk (by simp)
    simp only [ends_bind, ends_modify, ends_pure]
    cases value? with
    | none => exact absurd hk (ht.value _ (by rw [hr]; exact List.mem_cons_self))
    | some value => exact ⟨.skip reader, rfl, _, hr, .number hk⟩
  · next hk => exact Sound.resolve hk
  · next hk => exact Sound.call hp hk ht
  · exact .report _ _ _

theorem Sound.parenthesized (hp : Sound .assignment p) : Sound .operand (parenthesized p) := by
  intro reader ht
  simp only [Expr.parenthesized, ends_bind, ends_accept]
  by_cases ho : reader.next.isDelimiter "("
  · simp only [ho, if_true, ends_bind, ends_sees]
    have hg := Reader.Goes.skip reader
    split
    · exact hg.fails (.report _ _ _)
    · rw [ends_bind]
      refine (hp reader.skip (ht.suffix hg.rest)).mono ?_ fun _ h => hg.fails h
      intro e left h
      rw [ends_bind, ends_close]
      split
      · next hc =>
        cases e with
        | none => exact (hg.fails h).goes (.skip _)
        | some e =>
          obtain ⟨hg', hd, ts, hr, he⟩ := h
          refine ⟨(hg.trans hg').trans (.skip _), hd, _, ?_, .group ho he hc⟩
          rw [reader.rest_eq_of_isDelimiter ho, hr, left.rest_eq_of_isDelimiter hc]
          simp
      · exact (hg.trans h.goes).fails (.report _ _ _)
  · simpa [ho] using Sound.primary hp ht

theorem Sound.expression (depth : Nat) : Sound .assignment (expression depth) := by
  induction depth with
  | zero => exact fun _ _ => .report _ _ _
  | succ depth ih => exact .level joins_assignment (.operations (.signed (.parenthesized ih)))

theorem Sound.whole (reader : Reader) (ht : Token.Regular reader.rest) : whole.Ends reader
    (fun e left => Reads .assignment reader e left ∧ left.next.isFinish) reader.Fails := by
  simp only [Expr.whole, ends_bind, ends_get]
  refine (Sound.expression _ reader ht).mono ?_ fun _ h => h
  intro e left h
  rw [ends_peek]
  split
  · next hf => exact ⟨h, hf⟩
  · have hfail {problem : Problem} {token : Token} : reader.Fails (left.report problem token) :=
      h.goes.fails (.report _ _ _)
    split <;> exact hfail

/-! ## Token lists and texts -/

/-- What reading a list of tokens gives: an expression of the tokens before the end and nothing
reported, or no expression and something reported. -/
theorem ofTokens_sound {tokens : List Token} (vars : Variables) (autoAdd : Bool)
    (ht : Token.Regular tokens) :
    Reader.Goes { rest := tokens, vars, autoAdd } (ofTokens tokens vars autoAdd).2 ∧
    match ofTokens tokens vars autoAdd with
    | (some e, left) => left.diagnostics = [] ∧
        Derives left.vars.names .assignment (Token.beforeFinish tokens) e
    | (none, left) => left.diagnostics ≠ [] := by
  unfold ofTokens
  dsimp only
  split
  · exact ⟨.report _ _ _, by simp [Reader.report]⟩
  · have hw := Sound.whole { rest := tokens, vars, autoAdd } ht
    split
    · next e left hr =>
      obtain ⟨h, hf⟩ := hw.of_ok hr
      refine ⟨h.goes, ?_⟩
      cases e with
      | none => exact List.ne_nil_of_length_pos (Nat.zero_lt_of_lt h.reported)
      | some e =>
        obtain ⟨-, hd, ts, hrest, he⟩ := h
        have hts : Token.beforeFinish tokens = ts := by
          change tokens = ts ++ left.rest at hrest
          rw [hrest]
          unfold Reader.next at hf
          cases hl : left.rest with
          | nil => rw [List.append_nil, Token.beforeFinish_of_forall he.isFinish]
          | cons last us =>
            rw [hl] at hf
            exact Token.beforeFinish_append he.isFinish hf
        exact ⟨hd, hts ▸ he⟩
    · next left hr =>
      have h := hw.of_error hr
      exact ⟨h.toGoes, List.ne_nil_of_length_pos (Nat.zero_lt_of_lt h.reported)⟩

theorem derives_of_ofTokens {tokens : List Token} {vars : Variables} {autoAdd : Bool}
    (ht : Token.Regular tokens) (he : (ofTokens tokens vars autoAdd).1 = some e) :
    (ofTokens tokens vars autoAdd).2.diagnostics = [] ∧
      Derives (ofTokens tokens vars autoAdd).2.vars.names .assignment
        (Token.beforeFinish tokens) e := by
  have h := (ofTokens_sound vars autoAdd ht).2
  revert h he
  cases ofTokens tokens vars autoAdd with
  | mk e? left =>
    rintro rfl h
    exact h

theorem parse_sound {text : List Char} {vars : Variables} {autoAdd : Bool}
    (h : (parse text vars autoAdd).diagnostics = []) :
    ∃ e, (parse text vars autoAdd).expr = some e ∧ (Token.scan text).2 = [] ∧
      Derives (parse text vars autoAdd).vars.names .assignment
        (Token.beforeFinish (Token.scan text).1) e ∧
      vars.Extends (parse text vars autoAdd).vars ∧
      (autoAdd = false → (parse text vars autoAdd).vars = vars) := by
  obtain ⟨hs, hd⟩ : (Token.scan text).2 = [] ∧
      (ofTokens (Token.scan text).1 vars autoAdd).2.diagnostics = [] :=
    List.append_eq_nil_iff.1 h
  obtain ⟨hg, hm⟩ := ofTokens_sound vars autoAdd (Token.regular_scan hs)
  cases ho : ofTokens (Token.scan text).1 vars autoAdd with
  | mk e? left =>
    rw [ho] at hg hm hd
    cases e? with
    | none => exact absurd hd hm
    | some e =>
      have hp : parse text vars autoAdd = ⟨some e, [], left.vars⟩ := by
        simp [parse, ho, hs, hm.1]
      rw [hp]
      exact ⟨e, rfl, hs, hm.2, hg.vars, hg.fixed⟩

/-- Parsing a text adds no names but those among its tokens. -/
theorem mem_names_of_parse {text : List Char} {vars : Variables} {autoAdd : Bool} {name : String}
    (h : (parse text vars autoAdd).diagnostics = [])
    (hm : name ∈ (parse text vars autoAdd).vars.names) :
    name ∈ vars.names ∨ ∃ t ∈ (Token.scan text).1, t.kind = .name ∧ t.text = name := by
  obtain ⟨hs, -⟩ := List.append_eq_nil_iff.1 h
  exact (ofTokens_sound vars autoAdd (Token.regular_scan hs)).1.named name hm

/-- A text has an expression if and only if nothing is wrong with it. -/
theorem isSome_parse_iff {text : List Char} {vars : Variables} {autoAdd : Bool} :
    (parse text vars autoAdd).expr.isSome ↔ (parse text vars autoAdd).diagnostics = [] := by
  constructor
  · intro h
    simp only [parse] at h ⊢
    split at h
    · next hd => exact List.isEmpty_iff.1 hd
    · simp at h
  · intro h
    obtain ⟨e, he, -⟩ := parse_sound h
    simp [he]

end Expr

end FormulaScript
