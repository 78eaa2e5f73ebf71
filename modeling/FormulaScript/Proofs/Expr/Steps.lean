import FormulaScript.Proofs.Expr.Soundness
import FormulaScript.Proofs.Token.Scan

/-!
# Relations that reading keeps

Reading is made of five basic steps: it takes a token that is no name, it takes a name and resolves
it, it takes the name of a function that does not exist and reports it, it reports another problem,
and it looks at the next token. So a relation between readers that holds over the first four, and
that is reflexive and transitive, holds between the reader from which an expression is read and the
one that is left, however the reading ends.
-/

namespace FormulaScript

namespace Reader

/-- What reading relies on: the tokens come to an end, and a parenthesis follows every function. -/
structure Supplied (reader : Reader) : Prop where
  finish : ∃ t ∈ reader.rest, t.isFinish
  opened : Token.Opened reader.rest

variable {reader left : Reader} {ts : List Token}

theorem Supplied.rest_eq (h : reader.Supplied) : reader.rest = reader.next :: reader.skip.rest := by
  obtain ⟨t, ht, -⟩ := h.finish
  unfold next skip
  cases hr : reader.rest with
  | nil => simp [hr] at ht
  | cons => rfl

/-- Tokens that do not end the text may be taken. -/
theorem Supplied.of_rest (h : reader.Supplied) (hr : reader.rest = ts ++ left.rest)
    (hts : ∀ t ∈ ts, t.isFinish = false) : left.Supplied where
  finish := by
    obtain ⟨t, ht, hf⟩ := h.finish
    rw [hr] at ht
    rcases List.mem_append.1 ht with ht | ht
    · exact absurd hf (by simp [hts t ht])
    · exact ⟨t, ht, hf⟩
  opened := h.opened.suffix (hr ▸ List.suffix_append _ _)

/-- At the end of the text all tokens in front of it have been taken. -/
theorem Supplied.beforeFinish_eq {tokens : List Token} (h : left.Supplied)
    (hr : tokens = ts ++ left.rest) (hts : ∀ t ∈ ts, t.isFinish = false)
    (hf : left.next.isFinish) : Token.beforeFinish tokens = ts := by
  rw [hr, h.rest_eq, Token.beforeFinish_append hts hf]

theorem Supplied.next_opening (h : reader.Supplied) (hk : reader.next.kind = .function) :
    reader.skip.next.isDelimiter "(" := by
  have hs : reader.next :: reader.skip.rest <:+ reader.rest := h.rest_eq ▸ List.suffix_rfl
  obtain ⟨opening, us, hr, ho⟩ := h.opened _ _ hs hk
  rwa [next, hr]

end Reader

/-- Whether the problem is one of those that are reported of the name of a variable without a slot,
or of a function that does not exist. -/
def Problem.isOfName (problem : Problem) : Bool :=
  problem.code == "UNKNOWN_VARIABLE" || problem.code == "CAPACITY_EXCEEDED" ||
    problem.code == "UNKNOWN_FUNCTION"

namespace Expr

open Read Reader

/-- The relation holds over the basic steps of reading. -/
structure Steps (R : Reader → Reader → Prop) : Prop where
  refl : ∀ reader, R reader reader
  trans : ∀ {reader left last}, R reader left → R left last → R reader last
  supplied : ∀ {reader left}, R reader left → reader.Supplied → left.Supplied
  skip : ∀ {reader}, reader.Supplied → reader.next.kind ≠ .finish → reader.next.kind ≠ .name →
    R reader reader.skip
  resolve : ∀ {reader}, reader.Supplied → reader.next.kind = .name →
    (resolve reader.next).Ends reader.skip (fun _ left => R reader left) (R reader)
  unknown : ∀ {reader}, reader.Supplied → reader.next.kind = .function →
    Builtin.ofName? reader.next.text = none →
    R reader (reader.skip.report (.unknownFunction reader.next.text) reader.next)
  report : ∀ {problem} (t reader), problem.isOfName = false → R reader (reader.report problem t)

/-- The relation holds between the reader at which the step starts and the one that it leaves. -/
def Keeps (R : Reader → Reader → Prop) (step : Read α) : Prop :=
  ∀ reader : Reader, reader.Supplied → step.Ends reader (fun _ left => R reader left) (R reader)

variable {R : Reader → Reader → Prop} {reader left : Reader} {p operand : Read (Option Expr)}

/-- A step that keeps the relation may come after others that do. -/
theorem Keeps.after {step : Read α} (h : Keeps R step) (hR : Steps R) (hs : reader.Supplied)
    (hl : R reader left) : step.Ends left (fun _ last => R reader last) (R reader) :=
  (h left (hR.supplied hl hs)).mono (fun _ _ => hR.trans hl) fun _ => hR.trans hl

namespace Steps

variable (hR : Steps R)
include hR

theorem pure (a : α) : Keeps R (Pure.pure a) := fun reader _ => hR.refl reader

theorem bind {step : Read α} {next : α → Read β} (h : Keeps R step) (h' : ∀ a, Keeps R (next a)) :
    Keeps R (step >>= next) := by
  intro reader hs
  rw [ends_bind]
  exact (h reader hs).mono (fun a left hl => (h' a).after hR hs hl) fun _ hl => hl

theorem delimiter (h : reader.next.isDelimiter symbol) (hs : reader.Supplied) :
    R reader reader.skip := by
  have hk := (Token.isDelimiter_iff.1 h).1
  exact hR.skip hs (by simp [hk]) (by simp [hk])

theorem fail {problem : Problem} (h : problem.isOfName = false) (t : Token) :
    Keeps R (fail problem t : Read α) := fun reader _ => hR.report t reader h

theorem failHere {problem : Problem} (h : problem.isOfName = false) :
    Keeps R (failHere problem : Read α) := fun reader _ => hR.report reader.next reader h

theorem sees (text : String) : Keeps R (sees text) := fun reader _ => hR.refl reader

theorem accept (text : String) : Keeps R (accept text) := by
  intro reader hs
  rw [ends_accept]
  split
  · next h => exact hR.delimiter h hs
  · exact hR.refl reader

theorem close : Keeps R close :=
  hR.bind (hR.accept ")") fun found => by
    cases found with
    | true => exact hR.pure ()
    | false => exact hR.failHere rfl

/-! ## Levels of operators -/

theorem chain {check : Token → Option Expr → Read Unit}
    (hc : ∀ t left, Keeps R (check t left)) (hp : Keeps R operand) (table : List (String × α))
    (join : α → Location → Expr → Expr → Expr) (rounds : Nat) (left : Option Expr) :
    Keeps R (chain table check join operand rounds left) := by
  induction rounds generalizing left with
  | zero => exact hR.pure left
  | succ rounds ih =>
    intro reader hs
    simp only [Expr.chain, ends_bind, ends_peek]
    cases hop : operator? table reader.next with
    | none => exact hR.refl reader
    | some op =>
      obtain ⟨symbol, -, hd⟩ := operator?_eq_some hop
      rw [ends_bind, ends_take]
      exact (hR.bind (hc _ _) fun _ => hR.bind hp fun _ => ih _).after hR hs (hR.delimiter hd hs)

theorem level {check : Token → Option Expr → Read Unit}
    (hc : ∀ t left, Keeps R (check t left)) (hp : Keeps R operand) (table : List (String × α))
    (join : α → Location → Expr → Expr → Expr) : Keeps R (level table check join operand) :=
  hR.bind hp fun left => hR.bind (fun reader _ => hR.refl reader) fun _ =>
    hR.chain hc hp table join _ left

theorem operations (hp : Keeps R operand) (levels : List (List (String × BinaryOp))) :
    Keeps R (operations operand levels) := by
  induction levels with
  | nil => exact hp
  | cons table levels ih => exact hR.level (fun _ _ => hR.pure ()) ih table _

theorem checkTarget (t : Token) (left : Option Expr) : Keeps R (checkTarget t left) := by
  unfold Expr.checkTarget
  split
  · exact hR.fail rfl t
  · exact hR.pure ()

/-! ## Signs -/

theorem applySigns (run : List Token) (e : Option Expr) : Keeps R (applySigns run e) := by
  induction run with
  | nil => exact hR.pure e
  | cons sign run ih =>
    refine hR.bind ih fun e => ?_
    cases e with
    | none => exact hR.pure none
    | some e =>
      unfold applySign
      dsimp only
      split
      · exact hR.pure _
      · split
        · exact hR.pure _
        · split
          · exact hR.pure _
          · exact hR.fail rfl sign

/-- Delimiters are skipped one after the other. -/
theorem delimiters {run rest : List Token} (hs : reader.Supplied) (hr : reader.rest = run ++ rest)
    (hd : ∀ t ∈ run, t.kind = .delimiter) :
    R reader { reader with rest, position := reader.position + run.length } := by
  induction run generalizing reader with
  | nil =>
    obtain rfl : reader.rest = rest := hr
    exact hR.refl reader
  | cons t run ih =>
    have hn : reader.next = t := by rw [next, hr]; rfl
    have hk : reader.next.kind = .delimiter := hn ▸ hd t List.mem_cons_self
    have hskip : R reader reader.skip := hR.skip hs (by simp [hk]) (by simp [hk])
    have hrest : reader.skip.rest = run ++ rest := by rw [Reader.skip, hr]; rfl
    have hrun := ih (hR.supplied hskip hs) hrest fun u hu => hd u (List.mem_cons_of_mem _ hu)
    have hlength : reader.skip.position + run.length = reader.position + (t :: run).length := by
      simp only [Reader.skip, List.length_cons]
      omega
    rw [hlength] at hrun
    exact hR.trans hskip hrun

theorem takeSigns : Keeps R takeSigns := by
  intro reader hs
  simp only [Expr.takeSigns, ends_bind, ends_get, ends_modify, ends_pure]
  have hsplit := (List.prefix_iff_eq_append.1
    (List.takeWhile_prefix (l := reader.rest) fun token => signs.any token.isDelimiter)).symm
  refine hR.delimiters hs hsplit fun t ht => ?_
  have hsign : signs.any t.isDelimiter := List.all_eq_true.1 List.all_takeWhile t ht
  obtain ⟨symbol, -, hd⟩ := List.any_eq_true.1 hsign
  exact (Token.isDelimiter_iff.1 hd).1

theorem signed (hp : Keeps R operand) : Keeps R (signed operand) :=
  hR.bind hR.takeSigns fun run => hR.bind hp fun e => hR.applySigns run e

/-! ## Calls -/

/-- The arguments after one are read if a comma comes first. -/
theorem more (e : Option Expr) {others : Read (List (Option Expr))} (h : Keeps R others) :
    Keeps R (do
      if ← Read.accept "," then return e :: (← others)
      return [e]) :=
  hR.bind (hR.accept ",") fun found => by
    cases found with
    | true => exact hR.bind h fun es => hR.pure (e :: es)
    | false => exact hR.pure [e]

theorem arguments (hp : Keeps R p) {tooFew : Problem} (h : tooFew.isOfName = false)
    (missing : Nat) : Keeps R (arguments p tooFew missing) := by
  induction missing with
  | zero => exact hR.pure []
  | succ missing ih =>
    have hmore : Keeps R (do
        let argument ← p
        if missing = 0 then return [argument]
        if ← Read.accept "," then return argument :: (← Expr.arguments p tooFew missing)
        return [argument]) := by
      refine hR.bind hp fun e => ?_
      split
      · exact hR.pure [e]
      · exact hR.more e ih
    refine hR.bind (hR.sees ")") fun found => ?_
    cases found with
    | true => exact hR.bind (hR.failHere h) fun _ => hmore
    | false => exact hmore

theorem printArguments (hp : Keeps R p) (rounds : Nat) : Keeps R (printArguments p rounds) := by
  induction rounds with
  | zero => exact hR.failHere rfl
  | succ rounds ih =>
    intro reader hs
    simp only [Expr.printArguments]
    rw [ends_bind, ends_peek]
    split
    · next hk =>
      rw [ends_bind, ends_modify, ends_bind, ends_pure]
      exact (hR.more _ ih).after hR hs (hR.skip hs (by simp [hk]) (by simp [hk]))
    · exact hR.bind hp (hR.more · ih) reader hs

theorem call (hp : Keeps R p) (hs : reader.Supplied) (hk : reader.next.kind = .function) :
    (call p).Ends reader (fun _ left => R reader left) (R reader) := by
  have hname : R reader reader.skip := hR.skip hs (by simp [hk]) (by simp [hk])
  have hopening : R reader reader.skip.skip :=
    hR.trans hname (hR.delimiter (hs.next_opening hk) (hR.supplied hname hs))
  have hclose (e : Option Expr) : Keeps R (do Read.close; return e) :=
    hR.bind hR.close fun _ => hR.pure e
  simp only [Expr.call]
  rw [ends_bind, ends_take]
  split
  · rw [ends_bind, ends_modify, ends_bind, ends_get]
    exact (hR.bind (hR.printArguments hp _) fun es => hclose _).after hR hs hopening
  · split
    · next hf => exact hR.unknown hs hk hf
    · next function _ =>
      rw [ends_bind, ends_modify]
      refine (hR.bind (hR.arguments hp rfl _) fun es => ?_).after hR hs hopening
      split
      · refine hR.bind (hR.sees ")") fun found => ?_
        cases found with
        | true => exact hR.bind (hR.failHere rfl) fun _ => hclose _
        | false => exact hclose _
      · exact hclose _

/-! ## Operands and expressions -/

theorem primary (hp : Keeps R p) : Keeps R (primary p) := by
  intro reader hs
  simp only [Expr.primary]
  rw [ends_bind, ends_peek]
  split
  · next hk => exact hR.skip hs (by simp [hk]) (by simp [hk])
  · next hk => exact hR.resolve hs hk
  · next hk => exact hR.call hp hs hk
  · refine hR.fail ?_ _ reader hs
    unfold unexpected
    split <;> rfl

theorem parenthesized (hp : Keeps R p) : Keeps R (parenthesized p) := by
  refine hR.bind (hR.accept "(") fun found => ?_
  cases found with
  | true =>
    have hinner : Keeps R (do let inner ← p; Read.close; return inner) :=
      hR.bind hp fun e => hR.bind hR.close fun _ => hR.pure e
    refine hR.bind (hR.sees ")") fun found => ?_
    cases found with
    | true => exact hR.bind (hR.failHere rfl) fun _ => hinner
    | false => exact hinner
  | false => exact hR.primary hp

theorem expression (depth : Nat) : Keeps R (expression depth) := by
  induction depth with
  | zero => exact hR.failHere rfl
  | succ depth ih =>
    exact hR.level hR.checkTarget
      (hR.operations (hR.signed (hR.parenthesized ih)) binaryLevels) assignments _

theorem whole : Keeps R whole := by
  refine hR.bind (fun reader _ => hR.refl reader) fun start => hR.bind (hR.expression _) fun e =>
    hR.bind (fun reader _ => hR.refl reader) fun token => ?_
  dsimp only
  split
  · exact hR.pure e
  · split
    · exact hR.bind (hR.fail rfl _) fun _ => hR.fail rfl _
    · exact hR.fail rfl _

theorem ofTokens {tokens : List Token} {vars : Variables} {autoAdd : Bool}
    (hs : Reader.Supplied { rest := tokens, vars, autoAdd }) :
    R { rest := tokens, vars, autoAdd } (ofTokens tokens vars autoAdd).2 := by
  unfold Expr.ofTokens
  dsimp only
  split
  · exact hR.report _ _ rfl
  · have hw := hR.whole _ hs
    split
    · next hrun => exact hw.of_ok hrun
    · next hrun => exact hw.of_error hrun

end Steps

theorem supplied_scan (text : List Char) (vars : Variables) (autoAdd : Bool) :
    Reader.Supplied { rest := (Token.scan text).1, vars, autoAdd } where
  finish := by
    obtain ⟨last, hs, hl⟩ := Token.scan_eq text
    exact ⟨last, hs ▸ List.mem_append_right _ (List.mem_singleton_self last), hl⟩
  opened := Token.opened_scanFrom 0 {} (Token.beforeNul text)

end Expr

end FormulaScript
