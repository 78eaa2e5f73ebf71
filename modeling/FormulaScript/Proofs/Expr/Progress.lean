import FormulaScript.Proofs.Expr.Soundness

/-!
# Progress of reading

Reading takes tokens from the front of any list, also of one that has no end or ends in its midst.
A step that gives a result has taken tokens of the list, at least one if the step reads an
expression. A step that stops has reported something. It may have gone past the end of the list, but
by one place only: the token after the name of a function is skipped unseen, and if there is none,
nothing can be read after it.
-/

namespace FormulaScript

namespace Reader

/-- The reader has gone on by some places, and what was reported before is kept. -/
structure Moves (count : Nat) (reader left : Reader) : Prop where
  rest : left.rest = reader.rest.drop count
  position : left.position = reader.position + count
  diagnostics : reader.diagnostics.length ≤ left.diagnostics.length

/-- Tokens have been taken from the list, so many at least. -/
def Takes (least : Nat) (reader left : Reader) : Prop :=
  ∃ count, least ≤ count ∧ count ≤ reader.rest.length ∧ Moves count reader left

/-- Reading has stopped with a report. If there were tokens, it may have gone one place past the
last one. -/
def Quits (reader left : Reader) : Prop :=
  ∃ count ≤ reader.rest.length + 1, (reader.rest = [] → count = 0) ∧ Moves count reader left ∧
    reader.diagnostics.length < left.diagnostics.length

/-- There is a reason for an expression to be missing: something has been reported, or there is a
number literal without a value. -/
def Excuses (reader left : Reader) : Prop :=
  reader.diagnostics.length < left.diagnostics.length ∨ ∃ t ∈ reader.rest, t.kind = .number none

/-- Tokens have been taken, and the result is as it should be unless there is an excuse. -/
structure Gains (least : Nat) (ok : Prop) (reader left : Reader) : Prop where
  takes : reader.Takes least left
  ok : ok ∨ reader.Excuses left

variable {reader left last : Reader} {ok ok' : Prop}

theorem Moves.refl (reader : Reader) : Moves 0 reader reader := ⟨rfl, rfl, Nat.le_refl _⟩

theorem Moves.skip (reader : Reader) : Moves 1 reader reader.skip :=
  ⟨List.drop_one.symm, rfl, Nat.le_refl _⟩

theorem Moves.trans (h : Moves m reader left) (h' : Moves n left last) :
    Moves (m + n) reader last where
  rest := by rw [h'.rest, h.rest, List.drop_drop]
  position := by rw [h'.position, h.position, Nat.add_assoc]
  diagnostics := h.diagnostics.trans h'.diagnostics

theorem Moves.length_rest (h : Moves count reader left) :
    left.rest.length = reader.rest.length - count := by
  rw [h.rest, List.length_drop]

theorem Takes.refl (reader : Reader) : reader.Takes 0 reader :=
  ⟨0, Nat.le_refl 0, Nat.zero_le _, .refl reader⟩

/-- A token of the list is taken. -/
theorem Takes.skip (hr : reader.rest ≠ []) : reader.Takes 1 reader.skip :=
  ⟨1, Nat.le_refl 1, List.length_pos_iff.2 hr, .skip reader⟩

theorem Takes.of_kind (h : reader.next.kind = kind) (hk : kind ≠ .finish) :
    reader.Takes 1 reader.skip :=
  .skip (reader.rest_eq_of_kind h hk ▸ List.cons_ne_nil _ _)

theorem Takes.delimiter (h : reader.next.isDelimiter symbol) : reader.Takes 1 reader.skip :=
  .of_kind (Token.isDelimiter_iff.1 h).1 nofun

theorem Takes.trans (h : reader.Takes m left) (h' : left.Takes n last) :
    reader.Takes (m + n) last := by
  obtain ⟨count, hm, hc, hmoves⟩ := h
  obtain ⟨count', hn, hc', hmoves'⟩ := h'
  rw [hmoves.length_rest] at hc'
  exact ⟨count + count', by omega, by omega, hmoves.trans hmoves'⟩

theorem Takes.mono (h : reader.Takes m left) (hm : n ≤ m) : reader.Takes n left := by
  obtain ⟨count, hc, h⟩ := h
  exact ⟨count, hm.trans hc, h⟩

theorem Takes.length_rest (h : reader.Takes least left) :
    left.rest.length + least ≤ reader.rest.length := by
  obtain ⟨count, hl, hc, hm⟩ := h
  rw [hm.length_rest]
  omega

theorem Takes.quits (h : reader.Takes least left) (h' : left.Quits last) : reader.Quits last := by
  obtain ⟨count, -, hc, hm⟩ := h
  obtain ⟨count', hc', hnil, hm', hd⟩ := h'
  rw [hm.length_rest] at hc'
  refine ⟨count + count', by omega, fun hr => ?_, hm.trans hm', hm.diagnostics.trans_lt hd⟩
  have hl : left.rest = [] := by rw [hm.rest, hr, List.drop_nil]
  rw [hr, List.length_nil] at hc
  rw [hnil hl]
  omega

theorem Quits.report (problem : Problem) (t : Token) (reader : Reader) :
    reader.Quits (reader.report problem t) := by
  refine ⟨0, Nat.zero_le _, fun _ => rfl, ⟨rfl, rfl, ?_⟩, ?_⟩ <;> simp [Reader.report]

theorem Takes.gains (h : reader.Takes m left) (h' : left.Gains n ok last) :
    reader.Gains (m + n) ok last where
  takes := h.trans h'.takes
  ok := by
    obtain ⟨count, -, -, hm⟩ := h
    refine h'.ok.imp_right fun he => ?_
    rcases he with hd | ⟨t, ht, hk⟩
    · exact .inl (hm.diagnostics.trans_lt hd)
    · exact .inr ⟨t, List.mem_of_mem_drop (hm.rest ▸ ht), hk⟩

theorem Excuses.takes (h : reader.Excuses left) (h' : left.Takes least last) :
    reader.Excuses last := by
  obtain ⟨count, -, -, hm⟩ := h'
  exact h.imp_left fun h => h.trans_le hm.diagnostics

theorem Gains.of_ok (h : ok) (ht : reader.Takes least left) : reader.Gains least ok left :=
  ⟨ht, .inl h⟩

theorem Gains.refl (h : ok) (reader : Reader) : reader.Gains 0 ok reader := .of_ok h (.refl reader)

/-- What is reported is an excuse. -/
theorem Gains.report (problem : Problem) (t : Token) (reader : Reader) :
    reader.Gains 0 ok (reader.report problem t) := by
  refine ⟨⟨0, Nat.le_refl 0, Nat.zero_le _, rfl, rfl, ?_⟩, .inr (.inl ?_)⟩ <;> simp [Reader.report]

theorem Gains.imp (h : reader.Gains m ok left) (hm : n ≤ m) (hok : ok → ok') :
    reader.Gains n ok' left :=
  ⟨h.takes.mono hm, h.ok.imp_left hok⟩

theorem Gains.trans (h : reader.Gains m ok left) (h' : left.Gains n (ok → ok') last) :
    reader.Gains (m + n) ok' last := by
  rcases h.ok with hok | he
  · exact (h.takes.gains h').imp (Nat.le_refl _) fun hi => hi hok
  · exact ⟨h.takes.trans h'.takes, .inr (he.takes h'.takes)⟩

/-- After the name of a function the next token is skipped, whatever it is. If there is none the
reader goes past the end of the list, and gains nothing any more. -/
theorem Gains.skip_skip (h : reader.skip.skip.Gains 1 ok left) : reader.Gains 1 ok left := by
  have hl : left.rest.length + 1 ≤ reader.rest.length - 1 - 1 := by
    simpa [Reader.skip] using h.takes.length_rest
  have hs : reader.skip.rest.length = reader.rest.length - 1 := List.length_tail
  have hname : reader.Takes 1 reader.skip := .skip fun hr => by simp [hr] at hl
  have hopening : reader.skip.Takes 1 reader.skip.skip := .skip fun hr => by
    rw [hr, List.length_nil] at hs
    omega
  exact ((hname.trans hopening).gains h).imp (by omega) id

theorem Quits.skip_skip (hr : reader.rest ≠ []) (h : reader.skip.skip.Quits left) :
    reader.Quits left := by
  by_cases hs : reader.skip.rest = []
  · obtain ⟨count, -, hnil, hm, hd⟩ := h
    obtain rfl : count = 0 := hnil (by rw [Reader.skip, hs, List.tail_nil])
    refine ⟨1 + 1 + 0, ?_, fun h => absurd h hr, ((Moves.skip reader).trans (.skip _)).trans hm, hd⟩
    have hpos : 0 < reader.rest.length := List.length_pos_iff.2 hr
    omega
  · exact ((Takes.skip hr).trans (.skip hs)).quits h

end Reader

namespace Expr

open Read Reader

/-- The step takes so many tokens of the list at least, and its result is as it should be unless
there is an excuse, or it stops with a report. -/
def Proceeds (least : Nat) (good : α → Prop) (step : Read α) : Prop :=
  ∀ reader : Reader, step.Ends reader (fun a left => reader.Gains least (good a) left) reader.Quits

variable {reader left : Reader} {good : α → Prop} {good' : β → Prop}
  {operand p : Read (Option Expr)}

/-- The expressions are all there. -/
abbrev AllThere (es : List (Option Expr)) : Prop := ∀ e ∈ es, e.isSome

namespace Proceeds

theorem pure {a : α} (h : good a) : Proceeds 0 good (Pure.pure a) := fun reader => .refl h reader

theorem imp {good' : α → Prop} {step : Read α} (h : Proceeds m good step) (hm : n ≤ m)
    (hg : ∀ a, good a → good' a) : Proceeds n good' step :=
  fun reader => (h reader).mono (fun a _ hl => hl.imp hm (hg a)) fun _ hl => hl

/-- A step that proceeds may come after tokens that are taken. -/
theorem after {step : Read α} (h : Proceeds m good step) (hl : reader.Takes k left)
    (hn : n ≤ k + m) : step.Ends left (fun a last => reader.Gains n (good a) last) reader.Quits :=
  (h left).mono (fun _ _ h' => (hl.gains h').imp hn id) fun _ => hl.quits

theorem bind {step : Read α} {next : α → Read β} (h : Proceeds n good step)
    (h' : ∀ a, Proceeds 0 (fun b => good a → good' b) (next a)) :
    Proceeds n good' (step >>= next) := by
  intro reader
  rw [ends_bind]
  refine (h reader).mono (fun a left hl => ?_) fun _ hl => hl
  exact (h' a left).mono (fun _ _ hn => hl.trans hn) fun _ hq => hl.takes.quits hq

/-- A step whose result does not matter may come first. -/
theorem seq {step : Read α} {next : α → Read β} (h : Proceeds 0 (fun _ => True) step)
    (h' : ∀ a, Proceeds n good' (next a)) : Proceeds n good' (step >>= next) := by
  intro reader
  rw [ends_bind]
  refine (h reader).mono (fun a _ hl => ?_) fun _ hl => hl
  exact (h' a).after hl.takes (Nat.le_add_left n 0)

theorem fail (problem : Problem) (t : Token) : Proceeds n good (fail problem t) :=
  fun reader => .report problem t reader

theorem failHere (problem : Problem) : Proceeds n good (failHere problem) :=
  fun reader => .report problem reader.next reader

theorem get : Proceeds 0 (fun _ => True) (MonadState.get : Read Reader) :=
  fun reader => .refl trivial reader

theorem peek : Proceeds 0 (fun _ => True) peek := fun reader => .refl trivial reader

theorem sees (text : String) : Proceeds 0 (fun _ => True) (sees text) :=
  fun reader => .refl trivial reader

theorem accept (text : String) : Proceeds 0 (fun _ => True) (accept text) := by
  intro reader
  rw [ends_accept]
  split
  · next h => exact .of_ok trivial ((Takes.delimiter h).mono (Nat.zero_le 1))
  · exact .refl trivial reader

theorem close : Proceeds 0 (fun _ => True) close :=
  (accept ")").seq fun found => by
    cases found with
    | true => exact pure trivial
    | false => exact failHere _

/-! ## Levels of operators -/

section

variable {table : List (String × α)} {check : Token → Option Expr → Read Unit}
  {join : α → Location → Expr → Expr → Expr}

theorem isSome_seq {f : Expr → Expr → Expr} {left right : Option Expr} (hl : left.isSome)
    (hr : right.isSome) : (f <$> left <*> right).isSome := by
  obtain ⟨a, rfl⟩ := Option.isSome_iff_exists.1 hl
  obtain ⟨b, rfl⟩ := Option.isSome_iff_exists.1 hr
  rfl

theorem chain (hc : ∀ t left, Proceeds 0 (fun _ => True) (check t left))
    (hp : Proceeds 1 (·.isSome) operand) (rounds : Nat) (left : Option Expr) :
    Proceeds 0 (fun e => left.isSome → e.isSome) (chain table check join operand rounds left) := by
  induction rounds generalizing left with
  | zero => exact pure id
  | succ rounds ih =>
    intro reader
    simp only [Expr.chain, ends_bind, ends_peek]
    cases hop : operator? table reader.next with
    | none => exact .refl id reader
    | some op =>
      obtain ⟨symbol, -, hd⟩ := operator?_eq_some hop
      have hround : Proceeds 1 (fun e => left.isSome → e.isSome) (do
          check reader.next left
          let right ← operand
          Expr.chain table check join operand rounds
            (join op reader.next.location <$> left <*> right)) :=
        (hc _ _).seq fun _ => hp.bind fun right => (ih _).imp (Nat.le_refl 0)
          fun e he hr hl => he (isSome_seq hl hr)
      rw [ends_bind, ends_take]
      exact hround.after (.delimiter hd) (Nat.zero_le _)

theorem level (hc : ∀ t left, Proceeds 0 (fun _ => True) (check t left))
    (hp : Proceeds 1 (·.isSome) operand) :
    Proceeds 1 (·.isSome) (level table check join operand) :=
  hp.bind fun left => get.seq fun _ => (chain hc hp _ left).imp (Nat.le_refl 0) fun _ he hl => he hl

end

theorem operations (hp : Proceeds 1 (·.isSome) operand) (tables : List (List (String × BinaryOp))) :
    Proceeds 1 (·.isSome) (operations operand tables) := by
  induction tables with
  | nil => exact hp
  | cons table tables ih => exact ih.level fun _ _ => pure trivial

theorem checkTarget (t : Token) (left : Option Expr) :
    Proceeds 0 (fun _ => True) (checkTarget t left) := by
  unfold Expr.checkTarget
  split
  · exact fail _ t
  · exact pure trivial

/-! ## Signs -/

theorem applySign (sign : Token) (e : Option Expr) :
    Proceeds 0 (fun e' => e.isSome → e'.isSome) (applySign sign e) := by
  cases e with
  | none => exact pure id
  | some e =>
    unfold Expr.applySign
    dsimp only
    split
    · exact pure fun _ => rfl
    · split
      · exact pure fun _ => rfl
      · split
        · exact pure fun _ => rfl
        · exact fail _ sign

theorem applySigns (run : List Token) (e : Option Expr) :
    Proceeds 0 (fun e' => e.isSome → e'.isSome) (applySigns run e) := by
  induction run with
  | nil => exact pure id
  | cons sign run ih =>
    refine ih.bind fun e' => ?_
    exact (applySign sign e').imp (Nat.le_refl 0) fun _ hs hi he => hs (hi he)

theorem takeSigns : Proceeds 0 (fun _ => True) takeSigns := by
  intro reader
  have hle := (List.takeWhile_prefix (l := reader.rest)
    fun token => signs.any token.isDelimiter).length_le
  exact Gains.of_ok trivial ⟨_, Nat.zero_le _, hle, rfl, rfl, Nat.le_refl _⟩

theorem signed (hp : Proceeds 1 (·.isSome) operand) : Proceeds 1 (·.isSome) (signed operand) :=
  takeSigns.seq fun run => hp.bind fun e => applySigns run e

/-! ## Names and calls -/

theorem resolve (t : Token) : Proceeds 0 (·.isSome) (resolve t) := by
  intro reader
  cases hc : constants.lookup t.text with
  | some value =>
    simp only [Expr.resolve, hc, ends_pure]
    exact .refl rfl reader
  | none =>
    simp only [Expr.resolve, hc, ends_bind, ends_get]
    cases hi : reader.vars.indexOf? t.text with
    | some index => exact .refl rfl reader
    | none =>
      by_cases ha : reader.autoAdd
      · rw [if_pos ha]
        have hadded (vars : Variables) : reader.Takes 0 { reader with vars } :=
          ⟨0, Nat.le_refl 0, Nat.zero_le _, rfl, rfl, Nat.le_refl _⟩
        cases hadd : (reader.vars.add t.text).1 with
        | some index => exact Gains.of_ok rfl (hadded _)
        | none => exact (hadded _).gains (.report _ t _)
      · rw [if_neg ha]
        exact Gains.report _ t reader

/-- The arguments after one are read if a comma comes first. -/
theorem more {e : Option Expr} {others : Read (List (Option Expr))}
    {fits fits' : List (Option Expr) → Prop} (ho : Proceeds 0 fits others)
    (hone : e.isSome → fits' [e]) (hmore : ∀ es, fits es → e.isSome → fits' (e :: es)) :
    Proceeds 0 (fun es => e.isSome → fits' es) (do
      if ← Read.accept "," then return e :: (← others)
      return [e]) :=
  (accept ",").seq fun found => by
    cases found with
    | true => exact ho.bind fun es => pure (hmore es)
    | false => exact pure hone

theorem arguments (hp : Proceeds 1 (·.isSome) p) (tooFew : Problem) (hm : 0 < missing) :
    Proceeds 1 (fun es => es.length ≤ missing ∧ AllThere es) (arguments p tooFew missing) := by
  induction missing with
  | zero => omega
  | succ missing ih =>
    have hrest : Proceeds 1 (fun es => es.length ≤ missing + 1 ∧ AllThere es) (do
        let argument ← p
        if missing = 0 then return [argument]
        if ← Read.accept "," then return argument :: (← Expr.arguments p tooFew missing)
        return [argument]) := by
      refine hp.bind fun e => ?_
      have hone (he : e.isSome) : [e].length ≤ missing + 1 ∧ AllThere [e] :=
        ⟨Nat.le_add_left 1 missing, List.forall_mem_singleton.2 he⟩
      split
      · exact pure hone
      · next hm' =>
        refine more ((ih (Nat.pos_of_ne_zero hm')).imp (Nat.zero_le 1) fun _ h => h) hone ?_
        exact fun es hes he => ⟨Nat.succ_le_succ hes.1, List.forall_mem_cons.2 ⟨he, hes.2⟩⟩
    refine (sees ")").seq fun found => ?_
    cases found with
    | true => exact (failHere tooFew).seq fun _ => hrest
    | false => exact hrest

theorem printArguments (hp : Proceeds 1 (·.isSome) p) (rounds : Nat) :
    Proceeds 1 AllThere (printArguments p rounds) := by
  induction rounds with
  | zero => exact failHere _
  | succ rounds ih =>
    have hmore (e : Option Expr) : Proceeds 0 (fun es => e.isSome → AllThere es) (do
        if ← Read.accept "," then return e :: (← Expr.printArguments p rounds)
        return [e]) :=
      more (ih.imp (Nat.zero_le 1) fun _ h => h) (fun he => List.forall_mem_singleton.2 he)
        fun _ hes he => List.forall_mem_cons.2 ⟨he, hes⟩
    intro reader
    simp only [Expr.printArguments]
    rw [ends_bind, ends_peek]
    split
    · next token hk =>
      rw [ends_bind, ends_modify, ends_bind, ends_pure]
      have hstring := (hmore (some (.string reader.next.text reader.next.location))).imp
        (Nat.le_refl 0) fun _ h => h rfl
      exact hstring.after (.of_kind hk (by simp)) (Nat.le_refl 1)
    · exact hp.bind hmore reader

theorem isSome_mapM {es : List (Option Expr)} (h : AllThere es) :
    ∃ es', es.mapM id = some es' ∧ es'.length = es.length := by
  induction es with
  | nil => exact ⟨[], rfl, rfl⟩
  | cons e es ih =>
    obtain ⟨he, hes⟩ := List.forall_mem_cons.1 h
    obtain ⟨a, rfl⟩ := Option.isSome_iff_exists.1 he
    obtain ⟨es', hm, hl⟩ := ih hes
    exact ⟨a :: es', by simp [hm], by simp [hl]⟩

theorem closed {e : Option Expr} {ok : Prop} (h : ok → e.isSome) :
    Proceeds 0 (fun e => ok → e.isSome) (do Read.close; return e) :=
  close.seq fun _ => pure h

/-- With fewer arguments than there should be the reading stops, whether or not they are closed. -/
theorem closeArguments (function : Builtin) (es : List (Option Expr)) (tooFew : Problem)
    (location : Location) (reader : Reader) :
    Ends (do
      if es.length < function.arity then
        if ← Read.sees ")" then Read.failHere tooFew
      Read.close
      return (es.mapM id).bind (ofCall function · location)) reader
      (fun e left => reader.Gains 0 (es.length ≤ function.arity ∧ AllThere es → e.isSome) left)
      reader.Quits := by
  split
  · rw [ends_bind, ends_sees]
    split
    · exact .report _ _ _
    · next hc =>
      rw [ends_bind, ends_close, if_neg hc]
      exact .report _ _ _
  · next hlt =>
    refine closed (fun ⟨hle, hes⟩ => ?_) reader
    obtain ⟨es', hm, hl⟩ := isSome_mapM hes
    obtain ⟨e, he⟩ := exists_callNode function (show es'.length = function.arity by omega) location
    rw [hm, Option.bind_some, he.ofCall_eq]
    rfl

/-- The arguments of a call begin after the name of the function and the token that follows. -/
theorem after_opening {step : Read α} (h : Proceeds 1 good step) (hr : reader.rest ≠ []) :
    step.Ends reader.skip.skip (fun a left => reader.Gains 1 (good a) left) reader.Quits :=
  (h reader.skip.skip).mono (fun _ _ => .skip_skip) fun _ => .skip_skip hr

theorem call (hp : Proceeds 1 (·.isSome) p) (hr : reader.rest ≠ []) :
    (call p).Ends reader (fun e left => reader.Gains 1 e.isSome left) reader.Quits := by
  simp only [Expr.call]
  rw [ends_bind, ends_take]
  split
  · rw [ends_bind, ends_modify, ends_bind, ends_get]
    refine after_opening ((printArguments hp _).bind fun es => closed fun hes => ?_) hr
    obtain ⟨es', hm, -⟩ := isSome_mapM hes
    rw [hm]
    rfl
  · split
    · exact (Takes.skip hr).quits (.report _ _ _)
    · next function _ =>
      rw [ends_bind, ends_modify]
      exact after_opening ((arguments hp _ (arity_pos function)).bind fun es =>
        closeArguments function es _ _) hr

/-! ## Operands and expressions -/

theorem primary (hp : Proceeds 1 (·.isSome) p) : Proceeds 1 (·.isSome) (primary p) := by
  intro reader
  simp only [Expr.primary]
  rw [ends_bind, ends_peek]
  split
  · next value? hk =>
    have hm : reader.next ∈ reader.rest := by
      rw [reader.rest_eq_of_kind hk (by simp)]
      exact List.mem_cons_self
    rw [ends_bind, ends_modify, ends_pure]
    refine ⟨.of_kind hk (by simp), ?_⟩
    cases value? with
    | none => exact .inr (.inr ⟨reader.next, hm, hk⟩)
    | some value => exact .inl rfl
  · next hk => exact (resolve _).after (.of_kind hk (by simp)) (Nat.le_refl 1)
  · next hk => exact call hp (reader.rest_eq_of_kind hk (by simp) ▸ List.cons_ne_nil _ _)
  · exact fail _ _ reader

theorem parenthesized (hp : Proceeds 1 (·.isSome) p) :
    Proceeds 1 (·.isSome) (parenthesized p) := by
  refine (accept "(").seq fun found => ?_
  cases found with
  | true =>
    have hinner : Proceeds 1 (·.isSome) (do let inner ← p; Read.close; return inner) :=
      hp.bind fun e => close.seq fun _ => pure id
    refine (sees ")").seq fun found => ?_
    cases found with
    | true => exact (failHere _).seq fun _ => hinner
    | false => exact hinner
  | false => exact primary hp

theorem expression (depth : Nat) : Proceeds 1 (·.isSome) (expression depth) := by
  induction depth with
  | zero => exact failHere _
  | succ depth ih => exact (signed (parenthesized ih)).operations binaryLevels |>.level checkTarget

theorem whole : Proceeds 1 (·.isSome) whole := by
  refine get.seq fun start => (expression _).bind fun e => peek.seq fun token => ?_
  dsimp only
  split
  · exact pure id
  · split
    · exact (fail _ token).seq fun _ => fail _ token
    · exact fail _ token

end Proceeds

/-- A run of the step that ends with a result has taken a token of the list at least. -/
def Progresses (step : Read α) : Prop :=
  ∀ reader : Reader, step.Ends reader (fun _ left => reader.Takes 1 left) fun _ => True

theorem Proceeds.progresses {step : Read α} (h : Proceeds 1 good step) : Progresses step :=
  fun reader => (h reader).mono (fun _ _ hl => hl.takes) fun _ _ => trivial

/-- The functions that read parts of expressions around nested ones make progress. -/
structure FunctionsProgress (p : Read (Option Expr)) : Prop where
  nested : Progresses p
  operations : ∀ tables, Progresses (operations (signed (parenthesized p)) tables)
  signed : Progresses (signed (parenthesized p))
  parenthesized : Progresses (parenthesized p)
  primary : Progresses (primary p)
  call : Progresses (call p)
  printArguments : ∀ rounds, Progresses (printArguments p rounds)

/-- Where there is no token, there is no function to call. -/
theorem Proceeds.progresses_call (hp : Proceeds 1 (·.isSome) p) : Progresses (Expr.call p) := by
  intro reader
  by_cases hr : reader.rest = []
  · have hn : reader.next = Reader.finish := by rw [Reader.next, hr]; rfl
    have hf : Builtin.ofName? Reader.finish.text = none := by decide
    simp only [Expr.call, ends_bind, ends_take, hn, hf]
    rw [if_neg (by decide)]
    trivial
  · exact (hp.call hr).mono (fun _ _ hl => hl.takes) fun _ _ => trivial

theorem Proceeds.functionsProgress (hp : Proceeds 1 (·.isSome) p) : FunctionsProgress p where
  nested := hp.progresses
  operations tables := (hp.parenthesized.signed.operations tables).progresses
  signed := hp.parenthesized.signed.progresses
  parenthesized := hp.parenthesized.progresses
  primary := hp.primary.progresses
  call := hp.progresses_call
  printArguments rounds := (hp.printArguments rounds).progresses

/-- Reading a list of tokens goes one place past its end at most. If it gives no expression there is
an excuse. -/
theorem moves_ofTokens (tokens : List Token) (vars : Variables) (autoAdd : Bool) :
    let start : Reader := { rest := tokens, vars, autoAdd }
    let left := (ofTokens tokens vars autoAdd).2
    (∃ count ≤ tokens.length + 1, Moves count start left) ∧
      ((ofTokens tokens vars autoAdd).1.isSome ∨ start.Excuses left) := by
  intro start left
  have hquits {last : Reader} (h : start.Quits last) :
      (∃ count ≤ tokens.length + 1, Moves count start last) ∧ start.Excuses last := by
    obtain ⟨count, hc, -, hm, hd⟩ := h
    exact ⟨⟨count, hc, hm⟩, .inl hd⟩
  unfold left ofTokens
  dsimp only
  split
  · exact (hquits (.report _ _ _)).imp_right .inr
  · have hw := Proceeds.whole start
    split
    · next hrun =>
      obtain ⟨⟨count, -, hc, hm⟩, hok⟩ := hw.of_ok hrun
      exact ⟨⟨count, Nat.le_succ_of_le hc, hm⟩, hok⟩
    · next hrun => exact (hquits (hw.of_error hrun)).imp_right .inr

end Expr

end FormulaScript
