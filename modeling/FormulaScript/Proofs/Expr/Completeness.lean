import FormulaScript.Proofs.Expr.Soundness

/-!
# Completeness of reading

Every expression of the grammar is read back from its tokens. At a level whose operators group to
the left, the tokens of an expression may be followed by more operators of the level. So what is
proved of such a level, by induction on derivations, is that its step goes on after the tokens as
its loop does (`Continues`). An expression has been read in full once the next token is no operator
of its level or a tighter one (`Stops`).
-/

namespace FormulaScript

namespace Reader

/-- The reader after some tokens. -/
def drop (n : Nat) (reader : Reader) : Reader :=
  { reader with rest := reader.rest.drop n, position := reader.position + n }

variable {reader : Reader} {rest ts : List Token} {t : Token}

@[simp] theorem drop_drop : (reader.drop n).drop m = reader.drop (n + m) := by
  simp [drop, Nat.add_assoc]

theorem skip_eq_drop (reader : Reader) : reader.skip = reader.drop 1 := by
  simp [skip, drop]

theorem drop_rest (h : reader.rest = ts ++ rest) : (reader.drop ts.length).rest = rest := by
  simp [drop, h]

theorem skip_rest (h : reader.rest = t :: rest) : reader.skip.rest = rest := by
  simp [skip, h]

theorem next_eq (h : reader.rest = t :: rest) : reader.next = t := by
  simp [next, h]

end Reader

namespace Expr

open Read

/-! ## Operators -/

theorem operator?_of_mem {table : List (String × α)} (hk : (table.map (·.1)).Nodup)
    (hm : (symbol, op) ∈ table) (ht : t.isDelimiter symbol) : operator? table t = some op := by
  induction table with
  | nil => cases hm
  | cons entry table ih =>
    obtain ⟨hn, hk⟩ := List.nodup_cons.1 hk
    rcases List.mem_cons.1 hm with rfl | hm
    · simp [operator?, ht]
    · have hne : t.isDelimiter entry.1 = false := Bool.eq_false_iff.2 fun he =>
        hn (List.mem_map.2 ⟨_, hm, Token.isDelimiter_unique ht he⟩)
      simpa [operator?, hne] using ih hk hm

theorem operator?_eq_none {table : List (String × α)}
    (h : ∀ symbol ∈ table.map (·.1), t.isDelimiter symbol = false) : operator? table t = none := by
  simpa [operator?] using h

namespace Level

theorem eq_of_mem_symbols {ℓ ℓ' : Level} (h : s ∈ ℓ.symbols) (h' : s ∈ ℓ'.symbols) : ℓ = ℓ' := by
  revert s
  cases ℓ <;> cases ℓ' <;> decide

theorem rank_injective {ℓ ℓ' : Level} (h : ℓ.rank = ℓ'.rank) : ℓ = ℓ' := by
  cases ℓ <;> cases ℓ' <;> first | rfl | cases h

theorem nodup_operators (ℓ : Level) : (ℓ.operators.map (·.1)).Nodup := by
  cases ℓ <;> decide

theorem rank_tighter {ℓ ℓ' : Level} (h : ℓ.tighter? = some ℓ') : ℓ'.rank = ℓ.rank + 1 := by
  cases ℓ <;> cases h <;> rfl

theorem mem_symbols_of_operator {ℓ : Level} (h : (symbol, op) ∈ ℓ.operators) :
    symbol ∈ ℓ.symbols := by
  have hm : symbol ∈ ℓ.operators.map (·.1) := List.mem_map.2 ⟨_, h, rfl⟩
  cases ℓ <;> first | exact hm | cases hm

end Level

/-- The next of some tokens is no operator of a level of the rank or a higher one. -/
def Stops (rank : Nat) (rest : List Token) : Prop :=
  ∀ t ∈ rest.head?, ∀ ℓ : Level, rank ≤ ℓ.rank → ∀ symbol ∈ ℓ.symbols, t.isDelimiter symbol = false

theorem Stops.mono (h : Stops rank rest) (hr : rank ≤ rank') : Stops rank' rest :=
  fun t ht ℓ hℓ => h t ht ℓ (Nat.le_trans hr hℓ)

theorem Stops.of_symbols {ℓ : Level} (h : Stops (ℓ.rank + 1) rest) (hℓ : ℓ.symbols = []) :
    Stops ℓ.rank rest := by
  intro t ht ℓ' hr symbol hm
  rcases Nat.eq_or_lt_of_le hr with heq | hlt
  · rw [← Level.rank_injective heq, hℓ] at hm
    cases hm
  · exact h t ht ℓ' hlt symbol hm

theorem stops_of_isDelimiter (h : t.isDelimiter symbol)
    (hs : ∀ ℓ : Level, rank ≤ ℓ.rank → symbol ∉ ℓ.symbols) : Stops rank (t :: rest) := by
  rintro _ ⟨⟩ ℓ hℓ symbol' hm
  exact Bool.eq_false_iff.2 fun h' => hs ℓ hℓ (Token.isDelimiter_unique h h' ▸ hm)

theorem stops_of_mem {ℓ : Level} (h : t.isDelimiter symbol) (hm : symbol ∈ ℓ.symbols) :
    Stops (ℓ.rank + 1) (t :: rest) :=
  stops_of_isDelimiter h fun ℓ' hr hm' => by
    cases Level.eq_of_mem_symbols hm hm'
    omega

theorem stops_of_next {reader : Reader} (h : reader.next.isFinish) : Stops rank reader.rest := by
  intro t ht ℓ _ symbol _
  have hn : reader.next = t := by simp [Reader.next, Option.mem_def.1 ht]
  refine Bool.eq_false_iff.2 fun hd => ?_
  simp [Token.isFinish_iff, hn, (Token.isDelimiter_iff.1 hd).1] at h

theorem stops_of_closing (h : t.isDelimiter ")") : Stops rank (t :: rest) :=
  stops_of_isDelimiter h fun ℓ _ => by cases ℓ <;> decide

theorem stops_of_comma (h : t.isDelimiter ",") : Stops rank (t :: rest) :=
  stops_of_isDelimiter h fun ℓ _ => by cases ℓ <;> decide

theorem Stops.next {reader : Reader} {ℓ : Level} (h : Stops rank reader.rest) (hr : rank ≤ ℓ.rank) :
    ∀ symbol ∈ ℓ.symbols, reader.next.isDelimiter symbol = false := by
  unfold Reader.next
  cases hrest : reader.rest with
  | nil => exact fun _ _ => rfl
  | cons t rest => exact h t (by simp [hrest]) ℓ hr

/-! ## Levels -/

/-- Reads an argument of `print`. -/
def printArgument (expression : Read (Option Expr)) : Read (Option Expr) := do
  let token ← peek
  match token.kind with
  | .string =>
    modify Reader.skip
    pure (some (.string token.text token.location))
  | _ => expression

namespace Level

/-- The step that reads the expressions of a level, with at most `depth` others nested in them. -/
def step (depth : Nat) : Level → Read (Option Expr)
  | argument => printArgument (expression (depth + 1))
  | assignment => expression (depth + 1)
  | disjunction => operations (Expr.signed (parenthesized (expression depth))) binaryLevels
  | conjunction => operations (Expr.signed (parenthesized (expression depth))) (binaryLevels.drop 1)
  | equality => operations (Expr.signed (parenthesized (expression depth))) (binaryLevels.drop 2)
  | order => operations (Expr.signed (parenthesized (expression depth))) (binaryLevels.drop 3)
  | sum => operations (Expr.signed (parenthesized (expression depth))) (binaryLevels.drop 4)
  | product => operations (Expr.signed (parenthesized (expression depth))) (binaryLevels.drop 5)
  | power => operations (Expr.signed (parenthesized (expression depth))) (binaryLevels.drop 6)
  | signed => Expr.signed (parenthesized (expression depth))
  | operand => parenthesized (expression depth)

/-- The loop that goes on at a level after an expression of it. Where a level has no operators of
its own it stops at once. -/
def loop (depth rounds : Nat) (e : Expr) : Level → Read (Option Expr)
  | assignment =>
    chain assignments checkTarget joinAssignment (step depth disjunction) rounds (some e)
  | ℓ =>
    chain ℓ.operators (fun _ _ => pure ())
      (fun op location left right => .binary op left right location)
      (step depth (ℓ.tighter?.getD operand)) rounds (some e)

theorem loop_of_ne {ℓ : Level} (h : ℓ ≠ assignment) :
    ℓ.loop depth rounds e = chain ℓ.operators (fun _ _ => pure ())
      (fun op location left right => .binary op left right location)
      (step depth (ℓ.tighter?.getD operand)) rounds (some e) := by
  cases ℓ <;> first | rfl | exact absurd rfl h

end Level

section

variable {table : List (String × α)} {check : Token → Option Expr → Read Unit}
  {join : α → Location → Expr → Expr → Expr} {operand : Read (Option Expr)} {reader : Reader}

theorem run_level (h : operand.run reader = .ok left last) :
    (level table check join operand).run reader =
      (chain table check join operand last.rest.length left).run last := by
  rw [level, run_bind_of_ok h, run_bind_of_ok (run_get _)]

theorem run_chain_of_none (h : operator? table reader.next = none) :
    (chain table check join operand rounds left).run reader = .ok left reader := by
  cases rounds with
  | zero => rfl
  | succ rounds =>
    rw [chain, run_bind_of_ok (run_peek _), h]
    rfl

theorem run_chain_of_some (h : operator? table reader.next = some op)
    (hc : (check reader.next (some left)).run reader.skip = .ok () reader.skip)
    (hr : operand.run reader.skip = .ok (some right) last) :
    (chain table check join operand (rounds + 1) (some left)).run reader =
      (chain table check join operand rounds
        (some (join op reader.next.location left right))).run last := by
  rw [chain, run_bind_of_ok (run_peek _), h]
  dsimp only
  rw [run_bind_of_ok (run_take _), run_bind_of_ok hc, run_bind_of_ok hr]
  rfl

end

theorem run_loop_of_stops {ℓ : Level} {reader : Reader} (h : Stops ℓ.rank reader.rest) :
    (ℓ.loop depth rounds e).run reader = .ok (some e) reader := by
  have hs := h.next (Nat.le_refl _)
  cases ℓ <;> exact run_chain_of_none (operator?_eq_none hs)

theorem run_loop_assignment {reader : Reader} (hm : (symbol, op) ∈ assignments)
    (hs : reader.next.isDelimiter symbol) (ht : target.isAssignable)
    (hv : (Level.disjunction.step depth).run reader.skip = .ok (some value) last) :
    (Level.assignment.loop depth (rounds + 1) target).run reader =
      (Level.assignment.loop depth rounds
        (joinAssignment op reader.next.location target value)).run last :=
  run_chain_of_some (operator?_of_mem (by decide) hm hs) (by simp [checkTarget, ht]) hv

theorem run_loop_binary {ℓ : Level} {reader : Reader} (hm : (symbol, op) ∈ ℓ.operators)
    (hs : reader.next.isDelimiter symbol) (hℓ : ℓ.tighter? = some ℓ')
    (hr : (ℓ'.step depth).run reader.skip = .ok (some right) last) :
    (ℓ.loop depth (rounds + 1) left).run reader =
      (ℓ.loop depth rounds (.binary op left right reader.next.location)).run last := by
  have hne : ℓ ≠ .assignment := by
    rintro rfl
    cases hm
  rw [Level.loop_of_ne hne, Level.loop_of_ne hne, hℓ]
  exact run_chain_of_some (operator?_of_mem ℓ.nodup_operators hm hs) rfl hr

/-! ## Complete levels -/

/-- The step of the level goes on after the tokens, which are no more than the depth, as its loop
does after the expression. -/
def Continues (names : List String) (ℓ : Level) (ts : List Token) (e : Expr) : Prop :=
  ∀ ⦃depth reader rest⦄, reader.vars.names = names → reader.rest = ts ++ rest →
    ts.length ≤ depth → Stops (ℓ.rank + 1) rest → ∃ rounds, rest.length ≤ rounds ∧
      (ℓ.step depth).run reader = (ℓ.loop depth rounds e).run (reader.drop ts.length)

variable {names : List String} {ts us rest : List Token} {e : Expr} {ℓ ℓ' : Level}

theorem Continues.run (h : Continues names ℓ ts e) {reader : Reader}
    (hn : reader.vars.names = names) (hr : reader.rest = ts ++ rest) (hd : ts.length ≤ depth)
    (hs : Stops ℓ.rank rest) :
    (ℓ.step depth).run reader = .ok (some e) (reader.drop ts.length) := by
  obtain ⟨rounds, -, hrun⟩ := h hn hr hd (hs.mono (Nat.le_succ _))
  rw [hrun, run_loop_of_stops (by rwa [Reader.drop_rest hr])]

/-- What is read in full goes on as a loop that stops at once. -/
theorem Continues.of_run (h : ∀ ⦃depth reader rest⦄, reader.vars.names = names →
    reader.rest = ts ++ rest → ts.length ≤ depth → Stops (ℓ.rank + 1) rest →
      (ℓ.step depth).run reader = .ok (some e) (reader.drop ts.length))
    (hℓ : ℓ.symbols = []) : Continues names ℓ ts e := by
  intro depth reader rest hn hr hd hs
  refine ⟨rest.length, Nat.le_refl _, ?_⟩
  rw [h hn hr hd hs, run_loop_of_stops (by rw [Reader.drop_rest hr]; exact hs.of_symbols hℓ)]

theorem run_step_of_symbols {ℓ : Level} {reader : Reader} (hs : ℓ.symbols ≠ [])
    (hℓ : ℓ.tighter? = some ℓ') (hr : (ℓ'.step depth).run reader = .ok (some e) left) :
    (ℓ.step depth).run reader = (ℓ.loop depth left.rest.length e).run left := by
  cases ℓ <;> cases hℓ <;> first | exact run_level hr | exact absurd rfl hs

theorem Continues.of_symbols (h : Continues names ℓ' ts e) (hs : ℓ.symbols ≠ [])
    (hℓ : ℓ.tighter? = some ℓ') : Continues names ℓ ts e := by
  intro depth reader rest hn hr hd hs'
  refine ⟨rest.length, Nat.le_refl _, ?_⟩
  rw [run_step_of_symbols hs hℓ (h.run hn hr hd (Level.rank_tighter hℓ ▸ hs')), Reader.drop_rest hr]

/-- An operator and its right operand join the expression on their left. The loop has a round for
them, since it has one for each token after the left operand. -/
theorem Continues.operator (hl : Continues names ℓ ts left) (hr : Continues names ℓ' us right)
    (ht : t.isDelimiter symbol) (hm : symbol ∈ ℓ.symbols) (hrank : ℓ'.rank = ℓ.rank + 1)
    (hjoin : ∀ ⦃depth rounds reader last⦄, reader.next = t →
      (ℓ'.step depth).run reader.skip = .ok (some right) last →
      (ℓ.loop depth (rounds + 1) left).run reader = (ℓ.loop depth rounds e).run last) :
    Continues names ℓ (ts ++ t :: us) e := by
  intro depth reader rest hn hrest hd hs
  rw [List.append_assoc, List.cons_append] at hrest
  rw [List.length_append, List.length_cons] at hd
  obtain ⟨rounds, hle, hrun⟩ :=
    @hl depth reader _ hn hrest (by omega) (stops_of_mem ht hm)
  rw [List.length_cons, List.length_append] at hle
  obtain ⟨rounds, rfl⟩ : ∃ n, rounds = n + 1 := ⟨rounds - 1, by omega⟩
  have hrest' := Reader.drop_rest hrest
  have hright : (ℓ'.step depth).run (reader.drop ts.length).skip =
      .ok (some right) ((reader.drop ts.length).skip.drop us.length) :=
    hr.run hn (Reader.skip_rest hrest') (by omega) (hrank ▸ hs)
  refine ⟨rounds, by omega, ?_⟩
  rw [hrun, hjoin (Reader.next_eq hrest') hright]
  simp [Reader.skip_eq_drop, Nat.add_assoc, Nat.add_comm 1]

theorem mem_assignments_of_update (h : (symbol, op) ∈ Level.updates) :
    (symbol, some op) ∈ assignments := by
  simpa [assignments, Level.updates] using h

theorem Continues.assignment (hl : Continues names .assignment ts target)
    (ha : target.isAssignable) (hm : (symbol, op) ∈ assignments) (ht : t.isDelimiter symbol)
    (hr : Continues names .disjunction us value) :
    Continues names .assignment (ts ++ t :: us) (joinAssignment op t.location target value) := by
  refine hl.operator hr ht ?_ rfl fun depth rounds reader last hnext hv => ?_
  · have hs : symbol ∈ assignments.map (·.1) := List.mem_map.2 ⟨_, hm, rfl⟩
    exact hs
  · rw [run_loop_assignment hm (hnext ▸ ht) ha hv, hnext]

theorem Continues.binary (hl : Continues names ℓ ts left) (hm : (symbol, op) ∈ ℓ.operators)
    (ht : t.isDelimiter symbol) (hℓ : ℓ.tighter? = some ℓ') (hr : Continues names ℓ' us right) :
    Continues names ℓ (ts ++ t :: us) (.binary op left right t.location) := by
  refine hl.operator hr ht (Level.mem_symbols_of_operator hm) (Level.rank_tighter hℓ) ?_
  intro depth rounds reader last hnext hv
  rw [run_loop_binary hm (hnext ▸ ht) hℓ hv, hnext]

/-! ## Signs -/

def signRun (rest : List Token) : List Token :=
  rest.takeWhile fun token => signs.any token.isDelimiter

theorem run_signed {p : Read (Option Expr)} (reader : Reader) :
    (signed p).run reader =
      (p >>= applySigns (signRun reader.rest)).run (reader.drop (signRun reader.rest).length) := rfl

/-- The sign in front applies to what is read after it. -/
theorem run_signed_cons {p : Read (Option Expr)} {reader : Reader} (ht : t.isDelimiter symbol)
    (hm : symbol ∈ signs) (hr : reader.rest = t :: rest) :
    (signed p).run reader = (signed p >>= applySign t).run reader.skip := by
  have hs : signRun reader.rest = t :: signRun reader.skip.rest := by
    rw [Reader.skip_rest hr, hr]
    exact List.takeWhile_cons_of_pos (List.any_eq_true.2 ⟨symbol, hm, ht⟩)
  have hd : reader.drop (signRun reader.rest).length =
      reader.skip.drop (signRun reader.skip.rest).length := by
    rw [hs, reader.skip_eq_drop, Reader.drop_drop, List.length_cons, Nat.add_comm]
  rw [EStateM.run_bind, run_signed reader.skip, ← EStateM.run_bind, bind_assoc, run_signed reader,
    hd, hs]
  rfl

theorem Continues.sign (h : Continues names .signed ts e) (ht : t.isDelimiter symbol)
    (hm : symbol ∈ signs)
    (ha : ∀ reader, (applySign t (some e)).run reader = .ok (some e') reader) :
    Continues names .signed (t :: ts) e' := by
  refine .of_run (fun depth reader rest hn hr hd hs => ?_) rfl
  rw [List.cons_append] at hr
  rw [List.length_cons] at hd
  have he : (Expr.signed (parenthesized (expression depth))).run reader.skip =
      .ok (some e) (reader.skip.drop ts.length) :=
    h.run hn (Reader.skip_rest hr) (by omega) (hs.of_symbols rfl)
  change (signed _).run reader = _
  rw [run_signed_cons ht hm hr, run_bind_of_ok he, ha]
  simp [Reader.skip_eq_drop, Nat.add_comm]

theorem Continues.signed (h : Continues names .operand (t :: ts) e) (ht : Starts .operand t) :
    Continues names .signed (t :: ts) e := by
  refine .of_run (fun depth reader rest hn hr hd hs => ?_) rfl
  have hnone : signRun reader.rest = [] := by
    rw [hr]
    refine List.takeWhile_cons_of_neg fun hsign => ?_
    obtain ⟨symbol, hm, hdel⟩ := List.any_eq_true.1 hsign
    rcases ht.delimiter symbol hdel with rfl | ⟨hne, -⟩
    · exact absurd hm (by decide)
    · exact hne rfl
  change (Expr.signed _).run reader = _
  rw [run_signed, hnone]
  exact run_bind_of_ok (h.run hn hr hd hs)

/-! ## Operands -/

theorem Continues.primary (hts : ts = t :: us) (ho : t.isDelimiter "(" = false)
    (h : ∀ ⦃depth reader rest⦄, reader.vars.names = names → reader.next = t →
      reader.rest = ts ++ rest → ts.length ≤ depth →
      (Expr.primary (expression depth)).run reader = .ok (some e) (reader.drop ts.length)) :
    Continues names .operand ts e := by
  refine .of_run (fun depth reader rest hn hr hd _ => ?_) rfl
  have hnext : reader.next = t := Reader.next_eq (hr.trans (by rw [hts]; rfl))
  change (parenthesized _).run reader = _
  rw [parenthesized, run_bind_of_ok (run_accept_of_false (by rwa [hnext]))]
  exact h hn hnext hr hd

theorem Starts.ne_closing (h : Starts ℓ t) : t.isDelimiter ")" = false :=
  Bool.eq_false_iff.2 fun hd => by
    rcases h.delimiter _ hd with hs | ⟨-, hs⟩
    · exact absurd hs (by decide)
    · exact absurd hs (by decide)

theorem Continues.group (h : Continues names .assignment ts e) (hd : Derives names .assignment ts e)
    (ho : opening.isDelimiter "(") (hc : closing.isDelimiter ")") :
    Continues names .operand (opening :: ts ++ [closing]) e := by
  refine .of_run (fun depth reader rest hn hr hl _ => ?_) rfl
  rw [List.append_assoc, List.cons_append] at hr
  simp only [List.length_append, List.length_cons, List.length_nil] at hl
  obtain ⟨depth, rfl⟩ : ∃ n, depth = n + 1 := ⟨depth - 1, by omega⟩
  obtain ⟨first, us, hts, hfirst⟩ := hd.starts
  have hskip : reader.skip.rest = ts ++ closing :: rest := Reader.skip_rest hr
  have hnext : reader.skip.next = first := Reader.next_eq (hskip.trans (by rw [hts]; rfl))
  have he : (expression (depth + 1)).run reader.skip = .ok (some e) (reader.skip.drop ts.length) :=
    h.run hn hskip (by omega) (stops_of_closing hc)
  have hclose : close.run (reader.skip.drop ts.length) = .ok () _ :=
    run_close (by rwa [Reader.next_eq (Reader.drop_rest hskip)])
  change (parenthesized _).run reader = _
  rw [parenthesized, run_bind_of_ok (run_accept_of_true (by rwa [Reader.next_eq hr]))]
  simp only [if_true]
  rw [run_bind_of_ok (run_sees _ _), hnext, hfirst.ne_closing]
  simp only [Bool.false_eq_true, if_false]
  rw [run_bind_of_ok he, run_bind_of_ok hclose]
  simp [Reader.skip_eq_drop, Nat.add_comm]

theorem Continues.number (hk : t.kind = .number (some value)) :
    Continues names .operand [t] (.literal value t.location) := by
  refine .primary rfl (by simp [Token.isDelimiter, hk]) fun depth reader rest _ hnext _ _ => ?_
  rw [Expr.primary, run_bind_of_ok (run_peek _), hnext, hk]
  dsimp only
  rw [run_bind_of_ok (run_modify _ _), reader.skip_eq_drop]
  rfl

theorem Continues.name (hk : t.kind = .name)
    (h : ∀ reader : Reader, reader.vars.names = names →
      (resolve t).run reader = .ok (some e) reader) : Continues names .operand [t] e := by
  refine .primary rfl (by simp [Token.isDelimiter, hk]) fun depth reader rest hn hnext _ _ => ?_
  rw [Expr.primary, run_bind_of_ok (run_peek _), hnext, hk]
  dsimp only
  rw [run_bind_of_ok (run_modify _ _), h reader.skip hn, reader.skip_eq_drop]
  rfl

theorem Continues.pi (hk : t.kind = .name) (ht : t.text = "PI") :
    Continues names .operand [t] (.literal FormulaScript.pi t.location) := by
  refine .name hk fun reader _ => ?_
  simp only [resolve, ht]
  rfl

theorem Continues.slot (hk : t.kind = .name) (ht : t.text ≠ "PI")
    (hi : names.idxOf? t.text = some index) :
    Continues names .operand [t] (.slot t.text index t.location) := by
  refine .name hk fun reader hn => ?_
  have hc : constants.lookup t.text = none := by
    simp [constants, List.lookup_cons, beq_false_of_ne ht]
  simp only [resolve, hc]
  rw [run_bind_of_ok (run_get _)]
  simp only [Variables.indexOf?, hn, hi]
  rfl

/-! ## Calls -/

theorem length_le_of_listed (h : Listed parts ts) : parts.length ≤ ts.length + 1 := by
  induction h with
  | last => simp
  | cons _ _ ih =>
    simp only [List.length_cons, List.length_append]
    omega

/-- Reads the arguments after one, if a comma comes first. -/
def argumentsAfter (argument : Option Expr) (others : Read (List (Option Expr))) :
    Read (List (Option Expr)) := do
  if ← accept "," then return argument :: (← others)
  return [argument]

theorem run_argumentsAfter_of_closing {reader : Reader} (h : reader.next.isDelimiter ")") :
    (argumentsAfter argument others).run reader = .ok [argument] reader := by
  have hc : reader.next.isDelimiter "," = false := Bool.eq_false_iff.2 fun hc =>
    absurd (Token.isDelimiter_unique h hc) (by decide)
  rw [argumentsAfter, run_bind_of_ok (run_accept_of_false hc)]
  rfl

theorem run_argumentsAfter_of_comma {reader : Reader} (h : reader.next.isDelimiter ",")
    (ho : others.run reader.skip = .ok es last) :
    (argumentsAfter argument others).run reader = .ok (argument :: es) last := by
  rw [argumentsAfter, run_bind_of_ok (run_accept_of_true h)]
  simp only [if_true]
  rw [run_bind_of_ok ho]
  rfl

theorem printArguments_succ (p : Read (Option Expr)) (rounds : Nat) :
    printArguments p (rounds + 1) =
      printArgument p >>= fun argument => argumentsAfter argument (printArguments p rounds) := by
  rw [printArguments, printArgument, bind_assoc]
  congr 1
  funext token
  cases token.kind <;> rfl

theorem arguments_succ {p : Read (Option Expr)} {reader : Reader}
    (hs : reader.next.isDelimiter ")" = false) (hp : p.run reader = .ok argument left)
    (hm : missing = 0 → left.next.isDelimiter ")") :
    (arguments p tooFew (missing + 1)).run reader =
      (argumentsAfter argument (arguments p tooFew missing)).run left := by
  rw [arguments, run_bind_of_ok (run_sees _ _), hs]
  simp only [Bool.false_eq_true, if_false]
  rw [run_bind_of_ok hp]
  split
  · next h => rw [run_argumentsAfter_of_closing (hm h)]; rfl
  · rfl

/-- Arguments are read up to the closing parenthesis by a step that reads one of them and goes on
as `argumentsAfter` does. -/
theorem run_listed {ℓ : Level} (step : Nat → Read (List (Option Expr)))
    (hstep : ∀ {reader e left missing}, reader.next.isDelimiter ")" = false →
      (ℓ.step depth).run reader = .ok e left → (missing = 0 → left.next.isDelimiter ")") →
      (step (missing + 1)).run reader = (argumentsAfter e (step missing)).run left)
    {derived : List (List Token × Expr)} {reader : Reader}
    (hs : ∀ argument ∈ derived, Derives names ℓ argument.1 argument.2)
    (h : ∀ argument ∈ derived, Continues names ℓ argument.1 argument.2)
    (hl : Listed (derived.map (·.1)) ts) (hc : closing.isDelimiter ")")
    (hn : reader.vars.names = names) (hr : reader.rest = ts ++ closing :: rest)
    (hd : ts.length ≤ depth) :
    (step derived.length).run reader =
      .ok (derived.map (some ·.2)) (reader.drop ts.length) := by
  induction derived generalizing ts reader with
  | nil => cases hl
  | cons argument derived ih =>
    obtain ⟨hd₁, hs⟩ := List.forall_mem_cons.1 hs
    obtain ⟨h₁, h⟩ := List.forall_mem_cons.1 h
    obtain ⟨first, us, hts, hfirst⟩ := hd₁.starts
    have hnext {after : List Token} (hr : reader.rest = argument.1 ++ after) :
        reader.next.isDelimiter ")" = false := by
      rw [hts, List.cons_append] at hr
      rw [Reader.next_eq hr, hfirst.ne_closing]
    rw [List.map_cons] at hl
    generalize hparts : derived.map (·.1) = parts at hl
    cases hl with
    | last =>
      obtain rfl := List.map_eq_nil_iff.1 hparts
      have hclosing : (reader.drop argument.1.length).next.isDelimiter ")" := by
        rwa [Reader.next_eq (Reader.drop_rest hr)]
      rw [List.length_singleton, hstep (hnext hr) (h₁.run hn hr hd (stops_of_closing hc))
        fun _ => hclosing, run_argumentsAfter_of_closing hclosing]
      rfl
    | @cons comma _ vs _ hcomma hl =>
      have hne : derived.length ≠ 0 := by
        rintro h0
        rw [← hparts, List.length_eq_zero_iff.1 h0] at hl
        cases hl
      rw [List.append_assoc, List.cons_append] at hr
      simp only [List.length_append, List.length_cons] at hd
      have hr' := Reader.drop_rest hr
      have hread : (ℓ.step depth).run reader =
          .ok (some argument.2) (reader.drop argument.1.length) :=
        h₁.run hn hr (by omega) (stops_of_comma hcomma)
      have htail : (step derived.length).run (reader.drop argument.1.length).skip = _ :=
        ih hs h (hparts ▸ hl) hn (Reader.skip_rest hr') (by omega)
      rw [List.length_cons, hstep (hnext hr) hread fun h0 => absurd h0 hne,
        run_argumentsAfter_of_comma (by rwa [Reader.next_eq hr']) htail]
      simp [Reader.skip_eq_drop, Nat.add_assoc, Nat.add_comm 1]

theorem Continues.call_of (hk : t.kind = .function)
    (h : ∀ ⦃depth reader rest⦄, reader.next = t → reader.skip.skip.vars.names = names →
      reader.skip.skip.rest = ts ++ closing :: rest → ts.length ≤ depth →
      (Expr.call (expression (depth + 1))).run reader =
        .ok (some e) (reader.skip.skip.drop ts.length).skip) :
    Continues names .operand (t :: opening :: ts ++ [closing]) e := by
  refine .primary rfl (by simp [Token.isDelimiter, hk]) fun depth reader rest hn hnext hr hd => ?_
  simp only [List.length_append, List.length_cons, List.length_nil] at hd
  obtain ⟨depth, rfl⟩ : ∃ n, depth = n + 1 := ⟨depth - 1, by omega⟩
  have hr' : reader.rest = t :: opening :: (ts ++ closing :: rest) := by simpa using hr
  rw [Expr.primary, run_bind_of_ok (run_peek _), hnext, hk]
  dsimp only
  rw [h hnext hn (Reader.skip_rest (Reader.skip_rest hr')) (by omega)]
  simp [Reader.skip_eq_drop, Nat.add_comm, Nat.add_left_comm]

theorem Continues.print {arguments : List (List Token × Expr)} (hk : t.kind = .function)
    (ht : t.text = "print")
    (hs : ∀ argument ∈ arguments, Derives names .argument argument.1 argument.2)
    (h : ∀ argument ∈ arguments, Continues names .argument argument.1 argument.2)
    (hl : Listed (arguments.map (·.1)) ts) (hc : closing.isDelimiter ")") :
    Continues names .operand (t :: opening :: ts ++ [closing])
      (.print (arguments.map (·.2)) t.location) := by
  refine .call_of hk fun depth reader rest hnext hn hr hd => ?_
  have hlen : arguments.length ≤ ts.length + 1 := by simpa using length_le_of_listed hl
  -- the loop has more rounds than there are arguments
  let spare := reader.skip.skip.rest.length + 1 - arguments.length
  have hspare : reader.skip.skip.rest.length + 1 = arguments.length + spare := by
    simp only [spare, hr, List.length_append, List.length_cons]
    omega
  have hlist := run_listed (fun n => printArguments (expression (depth + 1)) (n + spare))
    (fun _ hrun _ => by
      rw [Nat.add_right_comm, printArguments_succ]
      exact run_bind_of_ok hrun) hs h hl hc hn hr hd
  rw [Expr.call, run_bind_of_ok (run_take _), hnext, if_pos ht, run_bind_of_ok (run_modify _ _),
    run_bind_of_ok (run_get _), hspare, run_bind_of_ok hlist]
  rw [run_bind_of_ok (run_close (by rwa [Reader.next_eq (Reader.drop_rest hr)])), mapM_id_map_some]
  rfl

theorem Continues.call {arguments : List (List Token × Expr)} (hk : t.kind = .function)
    (hf : Builtin.ofName? t.text = some function)
    (hs : ∀ argument ∈ arguments, Derives names .assignment argument.1 argument.2)
    (h : ∀ argument ∈ arguments, Continues names .assignment argument.1 argument.2)
    (hl : Listed (arguments.map (·.1)) ts) (hc : closing.isDelimiter ")")
    (he : CallNode function (arguments.map (·.2)) t.location e) :
    Continues names .operand (t :: opening :: ts ++ [closing]) e := by
  have hprint : t.text ≠ "print" := fun ht => by
    rw [ht] at hf
    cases hf
  refine .call_of hk fun depth reader rest hnext hn hr hd => ?_
  have hlist := run_listed (Expr.arguments (expression (depth + 1))
    (.wrongArgumentCount t.text function.arity)) arguments_succ hs h hl hc hn hr hd
  have hlen : arguments.length = function.arity :=
    (List.length_map Prod.snd).symm.trans he.length_eq
  rw [hlen] at hlist
  rw [Expr.call, run_bind_of_ok (run_take _), hnext, if_neg hprint, hf]
  dsimp only
  rw [run_bind_of_ok (run_modify _ _), run_bind_of_ok hlist, if_neg (by simp [hlen]),
    run_bind_of_ok (run_close (by rwa [Reader.next_eq (Reader.drop_rest hr)])), mapM_id_map_some,
    Option.bind_some, he.ofCall_eq]
  rfl

/-! ## All levels -/

theorem Continues.argument (h : Continues names .assignment (t :: ts) e)
    (ht : Starts .assignment t) : Continues names .argument (t :: ts) e := by
  refine .of_run (fun depth reader rest hn hr hd hs => ?_) rfl
  have hk := ht.kind nofun
  change (printArgument _).run reader = _
  rw [printArgument, run_bind_of_ok (run_peek _), Reader.next_eq hr]
  split
  · next hstring => exact absurd hstring hk
  · exact h.run hn hr hd hs

theorem Continues.string (hk : t.kind = .string) :
    Continues names .argument [t] (.string t.text t.location) := by
  refine .of_run (fun depth reader rest _ hr _ _ => ?_) rfl
  change (printArgument _).run reader = _
  rw [printArgument, run_bind_of_ok (run_peek _), Reader.next_eq hr, hk]
  dsimp only
  rw [run_bind_of_ok (run_modify _ _), reader.skip_eq_drop]
  rfl

theorem Continues.tighter (h : Continues names ℓ' ts e) (hd : Derives names ℓ' ts e)
    (hℓ : ℓ.tighter? = some ℓ') : Continues names ℓ ts e := by
  obtain ⟨t, us, rfl, ht⟩ := hd.starts
  by_cases hs : ℓ.symbols = []
  · cases ℓ <;> cases hℓ <;> first
      | exact h.argument ht
      | exact h.signed ht
      | cases hs
  · exact h.of_symbols hs hℓ

/-- The step of every level goes on after the tokens of an expression of the level as its loop
does. -/
theorem Derives.continues (h : Derives names ℓ ts e) : Continues names ℓ ts e := by
  induction h with
  | tighter hℓ hd ih => exact ih.tighter hd hℓ
  | string hk => exact .string hk
  | assign _ ha ht _ ihl ihr =>
    exact ihl.assignment ha (List.mem_cons_self : ("=", none) ∈ assignments) ht ihr
  | update _ ha hm ht _ ihl ihr =>
    exact ihl.assignment ha (mem_assignments_of_update hm) ht ihr
  | binary _ hm ht hℓ _ ihl ihr => exact ihl.binary hm ht hℓ ihr
  | plus ht _ ih | minus ht _ ih =>
    exact ih.sign ht (by decide) fun _ => by simp [applySign, (Token.isDelimiter_iff.1 ht).2]
  | increment ht _ hv ih | decrement ht _ hv ih =>
    exact ih.sign ht (by decide) fun _ => by simp [applySign, (Token.isDelimiter_iff.1 ht).2, hv]
  | group ho hd hc ih => exact ih.group hd ho hc
  | number hk => exact .number hk
  | pi hk ht => exact .pi hk ht
  | slot hk ht hi => exact .slot hk ht hi
  | call hk hf _ hs hl hc he ih => exact .call hk hf hs ih hl hc he
  | print hk ht _ hs hl hc ih => exact .print hk ht hs ih hl hc

/-! ## Whole token lists -/

/-- The tokens of a level have one tree: the one that is read. -/
theorem Derives.unique (h : Derives names ℓ ts e) (h' : Derives names ℓ ts e') : e = e' := by
  let reader : Reader := { rest := ts, vars := { names }, autoAdd := false }
  have hr : reader.rest = ts ++ [] := (List.append_nil ts).symm
  have hrun := h.continues.run rfl hr (Nat.le_refl _) nofun
  rw [h'.continues.run rfl hr (Nat.le_refl _) nofun] at hrun
  exact (Option.some.inj (EStateM.Result.ok.inj hrun).1).symm

theorem Derives.run_whole (reader : Reader) (h : Derives reader.vars.names .assignment ts e)
    (hr : reader.rest = ts ++ rest) (hf : (reader.drop ts.length).next.isFinish) :
    whole.run reader = .ok (some e) (reader.drop ts.length) := by
  have hle : ts.length ≤ reader.rest.length := by simp [hr]
  have hrest := Reader.drop_rest hr
  have he : (expression (reader.rest.length + 1)).run reader = _ :=
    h.continues.run rfl hr hle (hrest ▸ stops_of_next hf)
  rw [whole, run_bind_of_ok (run_get _), run_bind_of_ok he, run_bind_of_ok (run_peek _), if_pos hf]
  rfl

end Expr

end FormulaScript
