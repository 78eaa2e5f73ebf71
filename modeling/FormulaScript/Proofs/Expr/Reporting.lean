import FormulaScript.Proofs.Expr.Steps
import FormulaScript.Proofs.Token.Tiling

/-!
# What is reported of an expression

Over a fixed list of variables reading reports every unknown name that it takes, in the order of the
tokens, and at most one other fault, at which it stops. That fault may be reported at a token that
has been taken before: an operator whose left operand is no target, or a `++` or `--` in front of
something else than a variable. Still nothing that was reported stands after it, since an operand
that is there holds no unknown name.
-/

namespace FormulaScript

/-- Whether the token is a name that is neither a constant nor among the variables. -/
def Token.isUnknown (vars : Variables) (t : Token) : Bool :=
  match t.kind with
  | .name => t.text != "PI" && !vars.contains t.text
  | _ => false

theorem Token.isUnknown_of_kind {t : Token} (h : t.kind = .name) (vars : Variables) :
    t.isUnknown vars = (t.text != "PI" && !vars.contains t.text) := by
  rw [isUnknown, h]

/-- What is reported of an unknown name. -/
def Token.unknownVariable (t : Token) : Diagnostic :=
  ⟨.unknownVariable t.text, none, some t.position⟩

/-- What is reported of the unknown names among some tokens. -/
def reports (vars : Variables) (ts : List Token) : List Diagnostic :=
  (ts.filter (·.isUnknown vars)).map (·.unknownVariable)

theorem reports_append (vars : Variables) (ts us : List Token) :
    reports vars (ts ++ us) = reports vars ts ++ reports vars us := by
  simp [reports]

theorem reports_of_kind {ts : List Token} (h : ∀ t ∈ ts, t.kind ≠ .name) (vars : Variables) :
    reports vars ts = [] := by
  have hf : ts.filter (·.isUnknown vars) = [] := by
    refine List.filter_eq_nil_iff.2 fun t ht => ?_
    unfold Token.isUnknown
    split
    · exact absurd ‹_› (h t ht)
    · exact Bool.false_ne_true
  rw [reports, hf, List.map_nil]

theorem reports_of_isDelimiter {t : Token} (h : t.isDelimiter symbol) (vars : Variables) :
    reports vars [t] = [] :=
  reports_of_kind (List.forall_mem_singleton.2 (by simp [(Token.isDelimiter_iff.1 h).1])) vars

namespace Reader

/-- What reading relies on: the tokens come to an end, a parenthesis follows every function, and no
name is added. -/
structure Ready (reader : Reader) : Prop where
  finish : ∃ t ∈ reader.rest, t.isFinish
  opened : Token.Opened reader.rest
  fixed : reader.autoAdd = false

/-- The tokens have been taken, and the unknown names among them reported. -/
structure Advances (ts : List Token) (reader left : Reader) : Prop where
  rest : reader.rest = ts ++ left.rest
  position : left.position = reader.position + ts.length
  finish : ∀ t ∈ ts, t.isFinish = false
  vars : left.vars = reader.vars
  autoAdd : left.autoAdd = reader.autoAdd
  diagnostics : left.diagnostics = reader.diagnostics ++ reports reader.vars ts

/-- The tokens have been taken and the unknown names among them reported, and then a last fault at
the token behind `front`, which stands after all of these names. -/
structure Faults (ts front : List Token) (fault : Diagnostic) (reader left : Reader) : Prop where
  taken : ts <+: reader.rest
  position : left.position = reader.position + ts.length
  place : ∃ t back, reader.rest = front ++ t :: back ∧ fault.position = some t.position
  unknown : reports reader.vars ts = reports reader.vars front
  code : fault.problem.code ≠ "UNKNOWN_VARIABLE"
  diagnostics : left.diagnostics = reader.diagnostics ++ reports reader.vars ts ++ [fault]

/-- Reading has stopped at a fault. -/
def Halts (reader left : Reader) : Prop := ∃ ts front fault, Faults ts front fault reader left

variable {reader left last : Reader} {ts us : List Token} {t : Token}

theorem Advances.refl (reader : Reader) : reader.Advances [] reader :=
  ⟨rfl, rfl, List.forall_mem_nil _, rfl, rfl, (List.append_nil _).symm⟩

theorem Advances.trans (h : reader.Advances ts left) (h' : left.Advances us last) :
    reader.Advances (ts ++ us) last where
  rest := by rw [h.rest, h'.rest, List.append_assoc]
  position := by rw [h'.position, h.position, List.length_append, Nat.add_assoc]
  finish := List.forall_mem_append.2 ⟨h.finish, h'.finish⟩
  vars := h'.vars.trans h.vars
  autoAdd := h'.autoAdd.trans h.autoAdd
  diagnostics := by
    rw [h'.diagnostics, h.diagnostics, h.vars, reports_append, List.append_assoc]

theorem Ready.supplied (h : reader.Ready) : reader.Supplied := ⟨h.finish, h.opened⟩

theorem Ready.rest_eq (h : reader.Ready) : reader.rest = reader.next :: reader.skip.rest :=
  h.supplied.rest_eq

theorem Advances.ready (h : reader.Advances ts left) (hr : reader.Ready) : left.Ready := by
  have hs : left.Supplied := hr.supplied.of_rest h.rest h.finish
  exact ⟨hs.finish, hs.opened, h.autoAdd.trans hr.fixed⟩

/-- A token that is no name is taken. -/
theorem Advances.skip (hr : reader.rest = reader.next :: reader.skip.rest)
    (hf : reader.next.isFinish = false) (hn : reader.next.kind ≠ .name) :
    reader.Advances [reader.next] reader.skip where
  rest := hr
  position := rfl
  finish := List.forall_mem_singleton.2 hf
  vars := rfl
  autoAdd := rfl
  diagnostics := by simp [reports_of_kind (List.forall_mem_singleton.2 hn), Reader.skip]

theorem Advances.delimiter (h : reader.next.isDelimiter symbol) :
    reader.Advances [reader.next] reader.skip := by
  have hk := (Token.isDelimiter_iff.1 h).1
  exact .skip (reader.rest_eq_of_isDelimiter h) (Token.isFinish_eq_false (by simp [hk]))
    (by simp [hk])

theorem Advances.halts (h : reader.Advances ts left) (hr : reader.rest = front ++ t :: back)
    (hf : reports reader.vars ts = reports reader.vars front)
    (hp : problem.code ≠ "UNKNOWN_VARIABLE") : reader.Halts (left.report problem t) :=
  ⟨ts, front, ⟨problem, none, some t.position⟩, h.rest ▸ List.prefix_append _ _, h.position,
    ⟨t, back, hr, rfl⟩, hf, hp, by rw [Reader.report, h.diagnostics]⟩

/-- A fault at the next token. -/
theorem Advances.halts_next (h : reader.Advances ts left) (hr : reader.Ready)
    (hp : problem.code ≠ "UNKNOWN_VARIABLE") : reader.Halts (left.report problem left.next) := by
  have hrest : reader.rest = ts ++ left.next :: left.skip.rest := by
    rw [h.rest, (h.ready hr).rest_eq]
  exact h.halts hrest rfl hp

theorem Advances.trans_halts (h : reader.Advances ts left) (h' : left.Halts last) :
    reader.Halts last := by
  obtain ⟨us, front, fault, hf⟩ := h'
  obtain ⟨t, back, hr, hp⟩ := hf.place
  have hvars := h.vars
  refine ⟨ts ++ us, ts ++ front, fault, ?_, ?_, ⟨t, back, ?_, hp⟩, ?_, hf.code, ?_⟩
  · rw [h.rest]
    exact (List.prefix_append_right_inj ts).2 hf.taken
  · rw [hf.position, h.position, List.length_append, Nat.add_assoc]
  · rw [h.rest, hr, List.append_assoc]
  · rw [reports_append, reports_append, ← hvars, hf.unknown]
  · rw [hf.diagnostics, h.diagnostics, hvars, reports_append]
    simp only [List.append_assoc]

/-- Some tokens have been taken, the unknown names among them reported. If the result is `ok`, there
were none. -/
def Passes (ok : Prop) (reader left : Reader) : Prop :=
  ∃ ts, reader.Advances ts left ∧ (ok → reports reader.vars ts = [])

theorem Advances.passes (h : reader.Advances ts left) (hn : reports reader.vars ts = []) :
    reader.Passes True left := ⟨ts, h, fun _ => hn⟩

theorem Passes.refl (reader : Reader) : reader.Passes True reader :=
  (Advances.refl reader).passes rfl

theorem Passes.skip (hr : reader.Ready) (hf : reader.next.kind ≠ .finish)
    (hn : reader.next.kind ≠ .name) : reader.Passes True reader.skip :=
  (Advances.skip hr.rest_eq (Token.isFinish_eq_false hf) hn).passes
    (reports_of_kind (List.forall_mem_singleton.2 hn) _)

theorem Passes.delimiter (h : reader.next.isDelimiter symbol) : reader.Passes True reader.skip :=
  (Advances.delimiter h).passes (reports_of_isDelimiter h _)

theorem Passes.imp (h : reader.Passes ok left) (hi : ok' → ok) : reader.Passes ok' left := by
  obtain ⟨ts, ht, hok⟩ := h
  exact ⟨ts, ht, hok ∘ hi⟩

theorem Passes.trans (h : reader.Passes ok left) (h' : left.Passes ok' last) :
    reader.Passes (ok ∧ ok') last := by
  obtain ⟨ts, ht, hok⟩ := h
  obtain ⟨us, hu, hok'⟩ := h'
  refine ⟨ts ++ us, ht.trans hu, fun ho => ?_⟩
  rw [ht.vars] at hok'
  rw [reports_append, hok ho.1, hok' ho.2]
  rfl

theorem Passes.ready (h : reader.Passes ok left) (hr : reader.Ready) : left.Ready := by
  obtain ⟨ts, ht, -⟩ := h
  exact ht.ready hr

theorem Passes.halts (h : reader.Passes ok left) (h' : left.Halts last) : reader.Halts last := by
  obtain ⟨ts, ht, -⟩ := h
  exact ht.trans_halts h'

theorem Passes.halts_next (h : reader.Passes ok left) (hr : reader.Ready)
    (hp : problem.code ≠ "UNKNOWN_VARIABLE") : reader.Halts (left.report problem left.next) := by
  obtain ⟨ts, ht, -⟩ := h
  exact ht.halts_next hr hp

/-- The reports of tokens in order stand at increasing positions. -/
theorem exists_places_of_sublist {tokens ts : List Token} {diagnostics : List Diagnostic}
    (h : tokens.Pairwise (·.position < ·.position)) (hs : ts.Sublist tokens)
    (hd : diagnostics.map (·.position) = ts.map (some ·.position)) :
    ∃ places : List Nat, diagnostics.map (·.position) = places.map some ∧
      places.Pairwise (· < ·) :=
  ⟨ts.map (·.position), by simp [hd], (h.sublist hs).map _ fun _ _ h => h⟩

theorem Advances.take_eq (h : reader.Advances ts left) (hp : reader.position = 0) :
    reader.rest.take left.position = ts := by
  rw [h.position, hp, Nat.zero_add]
  exact (List.prefix_iff_eq_take.1 ⟨_, h.rest.symm⟩).symm

theorem Faults.take_eq (h : reader.Faults ts front fault left) (hp : reader.position = 0) :
    reader.rest.take left.position = ts := by
  rw [h.position, hp, Nat.zero_add]
  exact (List.prefix_iff_eq_take.1 h.taken).symm

theorem Advances.exists_places (h : reader.Advances ts left) (hd : reader.diagnostics = [])
    (hi : reader.rest.Pairwise (·.position < ·.position)) :
    ∃ places : List Nat, left.diagnostics.map (·.position) = places.map some ∧
      places.Pairwise (· < ·) := by
  have hs : (ts.filter (·.isUnknown reader.vars)).Sublist reader.rest :=
    List.filter_sublist.trans (h.rest ▸ List.sublist_append_left ts _)
  refine exists_places_of_sublist hi hs ?_
  simp [h.diagnostics, hd, reports, Token.unknownVariable]

/-- The fault stands behind all the unknown names, even if tokens behind it have been taken. -/
theorem Faults.exists_places (h : reader.Faults ts front fault left) (hd : reader.diagnostics = [])
    (hi : reader.rest.Pairwise (·.position < ·.position)) :
    ∃ places : List Nat, left.diagnostics.map (·.position) = places.map some ∧
      places.Pairwise (· < ·) := by
  obtain ⟨t, back, hrest, hposition⟩ := h.place
  have hs : (front.filter (·.isUnknown reader.vars) ++ [t]).Sublist reader.rest := by
    rw [hrest]
    exact List.filter_sublist.append (List.singleton_sublist.2 List.mem_cons_self)
  refine exists_places_of_sublist hi hs ?_
  rw [h.diagnostics, hd, List.nil_append, h.unknown]
  simp [hposition, reports, Token.unknownVariable]

end Reader

namespace Expr

open Read Reader

/-- The step takes tokens and reports the unknown names among them, none if it gives an expression,
or it halts at a fault. -/
def Orderly (step : Read (Option Expr)) : Prop :=
  ∀ reader : Reader, reader.Ready →
    step.Ends reader (fun e left => reader.Passes e.isSome left) reader.Halts

variable {reader left start : Reader} {problem : Problem}

/-! ## Levels of operators -/

section

variable {table : List (String × α)} {check : Token → Option Expr → Read Unit}
  {join : α → Location → Expr → Expr → Expr} {operand : Read (Option Expr)}

/-- The check takes nothing, and reports a fault only of an operand that is there, at its
operator. -/
def ChecksOperand (check : Token → Option Expr → Read Unit) : Prop :=
  ∀ t left reader, (check t left).Ends reader (fun _ last => last = reader) fun last =>
    left.isSome ∧ ∃ problem : Problem, problem.code ≠ "UNKNOWN_VARIABLE" ∧
      last = reader.report problem t

theorem isSome_join {f : Expr → Expr → Expr} {left right : Option Expr}
    (h : (f <$> left <*> right).isSome) : left.isSome ∧ right.isSome := by
  cases left with
  | none => cases h
  | some =>
    cases right with
    | none => cases h
    | some => exact ⟨rfl, rfl⟩

/-- The induction is on the rounds; what is kept is that the left operand has been read from
`start`. -/
theorem Orderly.chain (hc : ChecksOperand check) (hp : Orderly operand) {rounds : Nat}
    {left : Option Expr} (hs : start.Ready) (hl : start.Passes left.isSome reader) :
    (chain table check join operand rounds left).Ends reader
      (fun e last => start.Passes e.isSome last) start.Halts := by
  induction rounds generalizing reader left with
  | zero => exact hl
  | succ rounds ih =>
    simp only [Expr.chain, ends_bind, ends_peek]
    cases hop : operator? table reader.next with
    | none => exact hl
    | some op =>
      obtain ⟨symbol, -, hd⟩ := operator?_eq_some hop
      have hskip : start.Passes left.isSome reader.skip :=
        (hl.trans (.delimiter hd)).imp fun h => ⟨h, trivial⟩
      simp only [ends_bind, ends_take]
      refine (hc reader.next left reader.skip).mono ?_ ?_
      · rintro _ _ rfl
        refine (hp reader.skip (hskip.ready hs)).mono ?_ fun _ h => hskip.halts h
        intro right last hr
        exact ih ((hskip.trans hr).imp isSome_join)
      · rintro _ ⟨hsome, problem, hne, rfl⟩
        obtain ⟨ts, ht, hnone⟩ := hl
        have hrest : start.rest = ts ++ reader.next :: reader.skip.rest := by
          rw [ht.rest, ← reader.rest_eq_of_isDelimiter hd]
        refine (ht.trans (.delimiter hd)).halts hrest ?_ hne
        rw [reports_append, reports_of_isDelimiter hd, List.append_nil]

theorem Orderly.level (hc : ChecksOperand check) (hp : Orderly operand) :
    Orderly (level table check join operand) := by
  intro reader hr
  simp only [Expr.level, ends_bind, ends_get]
  exact (hp reader hr).mono (fun left last hl => hp.chain hc hr hl) fun _ h => h

end

theorem checksOperand_pure : ChecksOperand fun _ _ => pure () := fun _ _ _ => rfl

theorem checksOperand_checkTarget : ChecksOperand checkTarget := by
  intro t left reader
  unfold checkTarget
  split
  · next h =>
    refine ⟨?_, _, ?_, rfl⟩
    · cases left with
      | none => cases h
      | some => rfl
    · simp [Problem.code]
  · rfl

theorem Orderly.operations (hp : Orderly operand) (tables : List (List (String × BinaryOp))) :
    Orderly (operations operand tables) := by
  induction tables with
  | nil => exact hp
  | cons table tables ih => exact ih.level checksOperand_pure

/-! ## Signs -/

/-- Signs are applied without taking a token. A fault is reported only of an operand that is there,
at one of the signs. -/
theorem ends_applySigns (run : List Token) (e : Option Expr) (reader : Reader) :
    (applySigns run e).Ends reader
      (fun e' last => last = reader ∧ (e'.isSome → e.isSome)) fun last =>
        e.isSome ∧ ∃ sign ∈ run, ∃ problem : Problem, problem.code ≠ "UNKNOWN_VARIABLE" ∧
          last = reader.report problem sign := by
  induction run with
  | nil => exact ⟨rfl, id⟩
  | cons sign run ih =>
    simp only [applySigns, ends_bind]
    refine ih.mono ?_ ?_
    · rintro e' _ ⟨rfl, he⟩
      cases e' with
      | none => exact ⟨rfl, he⟩
      | some e' =>
        have hsome : e.isSome := he rfl
        unfold applySign
        dsimp only
        split
        · exact ⟨rfl, fun _ => hsome⟩
        · split
          · exact ⟨rfl, fun _ => hsome⟩
          · split
            · exact ⟨rfl, fun _ => hsome⟩
            · exact ⟨hsome, sign, List.mem_cons_self, _, by simp [Problem.code], rfl⟩
    · rintro _ ⟨he, sign', hm, h⟩
      exact ⟨he, sign', List.mem_cons_of_mem _ hm, h⟩

theorem Orderly.signed (hp : Orderly operand) : Orderly (signed operand) := by
  intro reader hr
  simp only [Expr.signed, takeSigns, ends_bind, ends_get, ends_modify, ends_pure]
  let run := reader.rest.takeWhile fun token => signs.any token.isDelimiter
  let start : Reader := { reader with
    rest := reader.rest.drop run.length, position := reader.position + run.length }
  have hsplit : reader.rest = run ++ start.rest :=
    (List.prefix_iff_eq_append.1 (List.takeWhile_prefix _)).symm
  have hsigns : ∀ t ∈ run, t.kind = .delimiter := by
    intro t ht
    have hsign : signs.any t.isDelimiter := List.all_eq_true.1 List.all_takeWhile t ht
    obtain ⟨symbol, -, hd⟩ := List.any_eq_true.1 hsign
    exact (Token.isDelimiter_iff.1 hd).1
  have hnone : reports reader.vars run = [] :=
    reports_of_kind (fun t ht => by simp [hsigns t ht]) _
  have hrun : reader.Advances run start :=
    ⟨hsplit, rfl, fun t ht => Token.isFinish_eq_false (by simp [hsigns t ht]), rfl, rfl,
      by rw [hnone, List.append_nil]⟩
  refine (hp start (hrun.ready hr)).mono ?_ fun last h => hrun.trans_halts h
  intro e last h
  have hpass : reader.Passes e.isSome last :=
    ((hrun.passes hnone).trans h).imp fun h => ⟨trivial, h⟩
  refine (ends_applySigns run e last).mono ?_ ?_
  · rintro e' _ ⟨rfl, he⟩
    exact hpass.imp he
  · rintro _ ⟨he, sign, hm, problem, hne, rfl⟩
    obtain ⟨ts, ht, hts⟩ := hpass
    obtain ⟨front, back, hfb⟩ := List.append_of_mem hm
    have hrest : reader.rest = front ++ sign :: (back ++ start.rest) := by
      rw [hsplit, hfb, List.append_assoc, List.cons_append]
    rw [hfb, reports_append, List.append_eq_nil_iff] at hnone
    exact ht.halts hrest ((hts he).trans hnone.1.symm) hne

/-! ## Names and calls -/

theorem Orderly.resolve (hr : reader.Ready) (hk : reader.next.kind = .name) :
    (resolve reader.next).Ends reader.skip (fun e left => reader.Passes e.isSome left)
      reader.Halts := by
  have hu := Token.isUnknown_of_kind hk reader.vars
  have advances {left : Reader} (hleft : left = { reader.skip with
      diagnostics := reader.diagnostics ++ reports reader.vars [reader.next] }) :
      reader.Advances [reader.next] left := by
    subst hleft
    exact ⟨hr.rest_eq, rfl, List.forall_mem_singleton.2
      (Token.isFinish_eq_false (by simp [hk])), rfl, rfl, rfl⟩
  have known (hn : reader.next.isUnknown reader.vars = false) (e : Option Expr) :
      reader.Passes e.isSome reader.skip := by
    have hnone : reports reader.vars [reader.next] = [] := by simp [reports, hn]
    exact ((advances (by simp [hnone, Reader.skip])).passes hnone).imp fun _ => trivial
  cases hc : constants.lookup reader.next.text with
  | some value =>
    simp only [Expr.resolve, hc, ends_pure]
    exact known (by simp [hu, eq_pi_of_lookup hc]) _
  | none =>
    have hpi := ne_pi_of_lookup hc
    simp only [Expr.resolve, hc, ends_bind, ends_get]
    cases hi : reader.skip.vars.indexOf? reader.next.text with
    | some index =>
      obtain ⟨hlt, hname, -⟩ := List.idxOf?_eq_some_iff.1 hi
      have hm : reader.next.text ∈ reader.vars.names := hname ▸ List.getElem_mem hlt
      exact known (by simp [hu, Variables.contains, hm]) _
    | none =>
      have hm : reader.next.text ∉ reader.vars.names := List.idxOf?_eq_none_iff.1 hi
      have hunknown : reader.next.isUnknown reader.vars := by
        simp [hu, hpi, Variables.contains, hm]
      have hauto : reader.skip.autoAdd = false := hr.fixed
      simp only [hauto, Bool.false_eq_true, if_false, ends_bind, ends_report, ends_pure]
      refine ⟨[reader.next], advances ?_, by simp⟩
      simp [reports, hunknown, Reader.report, Reader.skip, Token.unknownVariable]

/-- A call takes the name of the function and the parenthesis after it. -/
theorem passes_function (hr : reader.Ready) (hk : reader.next.kind = .function) :
    reader.Passes True reader.skip.skip := by
  have hname : reader.Passes True reader.skip := .skip hr (by simp [hk]) (by simp [hk])
  exact (hname.trans (.delimiter (hr.supplied.next_opening hk))).imp fun h => ⟨h, h⟩

/-- What reading several expressions leaves of a reader. -/
abbrev PassesAll (reader : Reader) (es : List (Option Expr)) (left : Reader) : Prop :=
  reader.Passes (∀ e ∈ es, e.isSome) left

theorem passesAll_singleton {e : Option Expr} (h : reader.Passes e.isSome left) :
    PassesAll reader [e] left :=
  h.imp fun h => h e List.mem_cons_self

theorem passesAll_cons {e : Option Expr} (h : reader.Passes e.isSome left)
    (hc : left.next.isDelimiter ",") (hs : PassesAll left.skip es last) :
    PassesAll reader (e :: es) last :=
  ((h.trans (.delimiter hc)).trans hs).imp fun h =>
    ⟨⟨h e List.mem_cons_self, trivial⟩, fun e he => h e (List.mem_cons_of_mem _ he)⟩

/-- The arguments after one are read if a comma comes first. -/
theorem orderly_more {e : Option Expr} {others : Read (List (Option Expr))}
    (hr : reader.Ready) (h : reader.Passes e.isSome left)
    (ho : left.skip.Ready → others.Ends left.skip (PassesAll left.skip) left.skip.Halts) :
    Ends (do
      if ← accept "," then return e :: (← others)
      return [e]) left (PassesAll reader) reader.Halts := by
  simp only [ends_bind, ends_accept]
  by_cases hc : left.next.isDelimiter ","
  · have hcomma : reader.Passes (e.isSome ∧ True) left.skip := h.trans (.delimiter hc)
    simp only [hc, if_true, ends_bind, ends_pure]
    refine (ho (hcomma.ready hr)).mono (fun es last hs => passesAll_cons h hc hs) fun _ h' => ?_
    exact hcomma.halts h'
  · simp only [hc, if_false, Bool.false_eq_true, ends_pure]
    exact passesAll_singleton h

theorem Orderly.arguments (hp : Orderly p) {missing : Nat} {reader : Reader} (hr : reader.Ready) :
    (arguments p (.wrongArgumentCount name arity) missing).Ends reader (PassesAll reader)
      reader.Halts := by
  induction missing generalizing reader with
  | zero => exact (Passes.refl reader).imp fun _ => trivial
  | succ missing ih =>
    simp only [Expr.arguments, ends_bind, ends_sees]
    split
    · exact (Passes.refl reader).halts_next hr (by simp [Problem.code])
    · rw [ends_bind]
      refine (hp reader hr).mono (fun e left h => ?_) fun _ h => h
      split
      · exact passesAll_singleton h
      · exact orderly_more hr h ih

theorem Orderly.printArguments (hp : Orderly p) {rounds : Nat} {reader : Reader}
    (hr : reader.Ready) :
    (printArguments p rounds).Ends reader (PassesAll reader) reader.Halts := by
  induction rounds generalizing reader with
  | zero => exact (Passes.refl reader).halts_next hr (by simp [Problem.code])
  | succ rounds ih =>
    simp only [Expr.printArguments]
    rw [ends_bind, ends_peek]
    split
    · next hk =>
      rw [ends_bind, ends_modify, ends_bind, ends_pure]
      have hstring : reader.Passes True reader.skip := .skip hr (by simp [hk]) (by simp [hk])
      exact orderly_more hr (hstring.imp fun _ => trivial) ih
    · rw [ends_bind]
      exact (hp reader hr).mono (fun _ _ h => orderly_more hr h ih) fun _ h => h

theorem isSome_of_mapM {es : List (Option Expr)} {f : List Expr → Option Expr}
    (h : ((es.mapM id).bind f).isSome) : ∀ e ∈ es, e.isSome := by
  intro e he
  cases e with
  | some => rfl
  | none =>
    rw [mapM_id_of_mem he] at h
    cases h

/-- Reads a closing parenthesis after several expressions. -/
theorem ends_close_of_passes {ok : Prop} {e : Option Expr} (hr : reader.Ready)
    (h : reader.Passes ok left) (he : e.isSome → ok) :
    (do close; pure e : Read (Option Expr)).Ends left (fun e last => reader.Passes e.isSome last)
      reader.Halts := by
  rw [ends_bind, ends_close]
  split
  · next hc => exact (h.trans (.delimiter hc)).imp fun h => ⟨he h, trivial⟩
  · exact h.halts_next hr (by simp [Problem.code])

theorem Orderly.call (hp : Orderly p) (hr : reader.Ready) (hk : reader.next.kind = .function) :
    (call p).Ends reader (fun e left => reader.Passes e.isSome left) reader.Halts := by
  have hopen := passes_function hr hk
  have hready := hopen.ready hr
  simp only [Expr.call]
  rw [ends_bind, ends_take]
  split
  · rw [ends_bind, ends_modify, ends_bind, ends_get, ends_bind]
    refine (hp.printArguments hready).mono (fun es left h => ?_) fun _ h => hopen.halts h
    rw [Option.map_eq_bind]
    exact ends_close_of_passes hr (hopen.trans h) fun he => ⟨trivial, isSome_of_mapM he⟩
  · split
    · have hname : reader.Advances [reader.next] reader.skip :=
        .skip hr.rest_eq (Token.isFinish_eq_false (by simp [hk])) (by simp [hk])
      have hnone : reports reader.vars [reader.next] = [] :=
        reports_of_kind (List.forall_mem_singleton.2 (by simp [hk])) _
      have hrest : reader.rest = [] ++ reader.next :: reader.skip.rest := hr.rest_eq
      exact hname.halts hrest hnone (by simp [Problem.code])
    · next function _ =>
      rw [ends_bind, ends_modify, ends_bind]
      refine (hp.arguments hready).mono (fun es left h => ?_) fun _ h => hopen.halts h
      have hargs := hopen.trans h
      have hclose := ends_close_of_passes
        (e := (es.mapM id).bind (ofCall function · reader.next.location)) hr hargs
        fun he => ⟨trivial, isSome_of_mapM he⟩
      split
      · rw [ends_bind, ends_sees]
        split
        · exact hargs.halts_next hr (by simp [Problem.code])
        · exact hclose
      · exact hclose

/-! ## Operands and expressions -/

theorem code_unexpected (t : Token) : (unexpected t).code ≠ "UNKNOWN_VARIABLE" := by
  unfold unexpected
  split <;> simp [Problem.code]

theorem Orderly.primary (hp : Orderly p) (hr : reader.Ready) :
    (primary p).Ends reader (fun e left => reader.Passes e.isSome left) reader.Halts := by
  simp only [Expr.primary]
  rw [ends_bind, ends_peek]
  split
  · next hk =>
    have hnumber : reader.Passes True reader.skip := .skip hr (by simp [hk]) (by simp [hk])
    exact hnumber.imp fun _ => trivial
  · next hk => exact Orderly.resolve hr hk
  · next hk => exact hp.call hr hk
  · exact (Passes.refl reader).halts_next hr (code_unexpected _)

theorem Orderly.parenthesized (hp : Orderly p) : Orderly (parenthesized p) := by
  intro reader hr
  simp only [Expr.parenthesized, ends_bind, ends_accept]
  by_cases ho : reader.next.isDelimiter "("
  · have hopen : reader.Passes True reader.skip := .delimiter ho
    simp only [ho, if_true, ends_bind, ends_sees]
    split
    · exact hopen.halts_next hr (by simp [Problem.code])
    · rw [ends_bind]
      refine (hp reader.skip (hopen.ready hr)).mono (fun e left h => ?_) fun _ h => hopen.halts h
      exact ends_close_of_passes hr (hopen.trans h) fun he => ⟨trivial, he⟩
  · simpa [ho] using hp.primary hr

theorem Orderly.expression (depth : Nat) : Orderly (expression depth) := by
  induction depth with
  | zero => exact fun reader hr => (Passes.refl reader).halts_next hr (by simp [Problem.code])
  | succ depth ih =>
    exact (ih.parenthesized.signed.operations binaryLevels).level checksOperand_checkTarget

theorem orderly_whole (hr : reader.Ready) :
    whole.Ends reader (fun e left => reader.Passes e.isSome left ∧ left.next.isFinish)
      reader.Halts := by
  simp only [Expr.whole]
  rw [ends_bind, ends_get, ends_bind]
  refine (Orderly.expression _ reader hr).mono (fun e left h => ?_) fun _ h => h
  rw [ends_bind, ends_peek]
  split
  · next hf => exact ⟨h, hf⟩
  · split <;> exact h.halts_next hr (by simp [Problem.code])

/-! ## Texts -/

theorem ready_scan (text : List Char) (vars : Variables) :
    Reader.Ready { rest := (Token.scan text).1, vars, autoAdd := false } :=
  ⟨(supplied_scan text vars false).finish, (supplied_scan text vars false).opened, rfl⟩

theorem ofTokens_advances {tokens : List Token} {vars : Variables} {autoAdd : Bool}
    (hr : Reader.Ready { rest := tokens, vars, autoAdd }) :
    let left := (ofTokens tokens vars autoAdd).2
    (∃ ts, Reader.Advances ts { rest := tokens, vars, autoAdd } left ∧ left.next.isFinish) ∨
      Reader.Halts { rest := tokens, vars, autoAdd } left := by
  unfold ofTokens
  dsimp only
  split
  · exact .inr ((Passes.refl _).halts_next hr (by simp [Problem.code]))
  · have hw := orderly_whole hr
    split
    · next hrun =>
      obtain ⟨⟨ts, ht, -⟩, hf⟩ := hw.of_ok hrun
      exact .inl ⟨ts, ht, hf⟩
    · next hrun => exact .inr (hw.of_error hrun)

/-- Only the last token of a text ends it. -/
theorem eq_of_isFinish {left : Reader} (h : (Token.scan text).1 = ts ++ left.rest)
    (hts : ∀ t ∈ ts, t.isFinish = false) (hr : left.Ready) (hf : left.next.isFinish) :
    ∃ last, (Token.scan text).1 = ts ++ [last] ∧ last.isFinish := by
  obtain ⟨last, hs, hl⟩ := Token.scan_eq text
  have hb : Token.beforeFinish (Token.scan text).1 = ts :=
    hr.supplied.beforeFinish_eq h hts hf
  exact ⟨last, hb ▸ hs, hl⟩

/-- Over a fixed list of variables, what is reported of an expression is one unknown variable for
every unknown name in front of the place where the reading ends, in the order of the tokens, and
then at most one fault of another kind. All of it stands at increasing positions. If there is no
such fault the reading has come to the end of the text, so that every unknown name is reported. -/
theorem diagnostics_in_order (text : List Char) (vars : Variables) :
    let tokens := (Token.scan text).1
    let reader := (ofTokens tokens vars false).2
    let unknown := (tokens.take reader.position).filter (·.isUnknown vars)
    ∃ fatal : Option Diagnostic,
      reader.diagnostics = unknown.map (·.unknownVariable) ++ fatal.toList ∧
      (∀ d ∈ fatal, d.problem.code ≠ "UNKNOWN_VARIABLE") ∧
      (∃ places : List Nat, reader.diagnostics.map (·.position) = places.map some ∧
        places.Pairwise (· < ·)) ∧
      (fatal = none → unknown = tokens.filter (·.isUnknown vars) ∧
        ∃ last, tokens = tokens.take reader.position ++ [last] ∧ last.isFinish) := by
  intro tokens reader unknown
  have hready := ready_scan text vars
  have hincreasing : tokens.Pairwise (·.position < ·.position) :=
    (Token.tiles_scanFrom [] (Token.beforeNul text)).increasing
  rcases ofTokens_advances hready with ⟨ts, ht, hf⟩ | ⟨ts, front, fault, hf⟩
  · have hts : tokens.take reader.position = ts := ht.take_eq rfl
    have hd : reader.diagnostics = reports vars ts := ht.diagnostics
    obtain ⟨last, hlast, hl⟩ := eq_of_isFinish ht.rest ht.finish (ht.ready hready) hf
    have hknown : last.isUnknown vars = false := by
      rw [Token.isUnknown, Token.isFinish_iff.1 hl]
    refine ⟨none, ?_, nofun, ht.exists_places rfl hincreasing, fun _ => ⟨?_, last, ?_, hl⟩⟩
    · simp [hd, reports, unknown, hts]
    · simp only [unknown, hts]
      rw [show tokens = ts ++ [last] from hlast, List.filter_append]
      simp [hknown]
    · rw [hts]
      exact hlast
  · have hts : tokens.take reader.position = ts := hf.take_eq rfl
    have hd : reader.diagnostics = reports vars ts ++ [fault] := hf.diagnostics
    refine ⟨some fault, ?_, ?_, hf.exists_places rfl hincreasing, nofun⟩
    · simp [hd, reports, unknown, hts]
    · rintro _ ⟨⟩
      exact hf.code

end Expr

end FormulaScript
