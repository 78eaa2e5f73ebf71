import FormulaScript.Proofs.Expr.Places
import FormulaScript.Proofs.Expr.Targets
import FormulaScript.Proofs.Requests

/-!
# What an evaluation may change

An evaluation changes slots only through the nodes that assign, prints only through `print`, and
draws only through the functions that do. `Frame nodes context left` says so of the contexts before
and after it, for the nodes of an expression or of a whole program. It holds whether the evaluation
ends with a value or fails, and whatever the number of rounds of its loops.
-/

namespace FormulaScript

open Evaluation

namespace Expr

/-- The variables that a node stores a value into, each with its slot. -/
def assigned : Expr → List (String × Nat)
  | assign target _ _ => target.targets
  | update _ target _ _ => target.targets
  | increment _ target _ => target.targets
  | _ => []

/-- Whether a node prints. -/
def isPrint : Expr → Bool
  | print .. => true
  | _ => false

/-- Whether a node draws from the random source or reseeds it. -/
def isDraw : Expr → Bool
  | unary .rands _ _ | binary .urand _ _ _ | binary .nrand _ _ _ => true
  | _ => false

variable {e part operand : Expr}

theorem Part.trans (h : Part e part) (h' : Part part operand) : Part e operand := by
  induction h' with
  | self => exact h
  | operand _ hc ih => exact .operand ih hc

theorem Part.of_mem_children (hc : operand ∈ e.children) : Part e operand := .operand .self hc

/-- What a node assigns to is the variable of the slot. -/
theorem Named.getElem?_of_mem_assigned (h : Named names e) :
    ∀ target ∈ e.assigned, names[target.2]? = some target.1 := by
  cases h with
  | assign ht | update ht | increment ht => exact ht.getElem?_of_mem_targets
  | literal | slot | string | unary | binary | print | conditional => exact List.forall_mem_nil _

end Expr

/-! ## Frames -/

/-- Some of the nodes have changed all that differs between the contexts. What was printed before is
still there. -/
structure Frame (nodes : Expr → Prop) (context left : Context) : Prop where
  length : left.values.length = context.values.length
  assigned : ∀ index, left.values[index]? ≠ context.values[index]? →
    ∃ node, nodes node ∧ index ∈ node.assigned.map (·.2)
  printed : ∃ text, left.output = context.output ++ text
  silent : (∀ node, nodes node → node.isPrint = false) → left.output = context.output
  undrawn : (∀ node, nodes node → node.isDraw = false) → left.random = context.random

variable {nodes : Expr → Prop}

theorem Frame.refl (nodes : Expr → Prop) (context : Context) : Frame nodes context context where
  length := rfl
  assigned _ h := absurd rfl h
  printed := ⟨"", String.append_empty.symm⟩
  silent _ := rfl
  undrawn _ := rfl

theorem Frame.trans {context between left : Context} (h : Frame nodes context between)
    (h' : Frame nodes between left) : Frame nodes context left where
  length := h'.length.trans h.length
  assigned index hne := by
    by_cases heq : left.values[index]? = between.values[index]?
    · exact h.assigned index (heq ▸ hne)
    · exact h'.assigned index heq
  printed := by
    obtain ⟨text, ht⟩ := h.printed
    obtain ⟨text', ht'⟩ := h'.printed
    exact ⟨text ++ text', by rw [ht', ht, String.append_assoc]⟩
  silent hn := (h'.silent hn).trans (h.silent hn)
  undrawn hn := (h'.undrawn hn).trans (h.undrawn hn)

/-- The context that an action leaves, also if it fails. -/
def Evaluation.after (action : Evaluation α) (context : Context) : Context :=
  match action.run context with
  | .ok _ left | .error _ left => left

/-- The action stays within the frame of the nodes. -/
def Evaluation.Framed (nodes : Expr → Prop) (action : Evaluation α) : Prop :=
  ∀ context, Frame nodes context (action.after context)

namespace Evaluation

theorem after_of_ok {action : Evaluation α} {context left : Context}
    (h : action.run context = .ok a left) : action.after context = left := by
  rw [after, h]

theorem after_of_error {action : Evaluation α} {context left : Context}
    {failure : EvaluationError} (h : action.run context = .error failure left) :
    action.after context = left := by
  rw [after, h]

theorem framed_pure (a : α) : Framed nodes (pure a) := fun context => .refl nodes context

theorem framed_throw (failure : EvaluationError) : Framed nodes (throw failure : Evaluation α) :=
  fun context => .refl nodes context

theorem Framed.bind {action : Evaluation α} {next : α → Evaluation β} (h : Framed nodes action)
    (h' : ∀ a, Framed nodes (next a)) : Framed nodes (action >>= next) := by
  intro context
  have hf := h context
  unfold after
  rw [EStateM.run_bind]
  cases hr : action.run context with
  | ok a between =>
    rw [after_of_ok hr] at hf
    exact hf.trans (h' a between)
  | error failure left =>
    rw [after_of_error hr] at hf
    exact hf

theorem framed_read (index : Nat) : Framed nodes (read index) := by
  intro context
  have hr : (read index).after context = context := by
    rw [after, run_read]
    cases context.values[index]? <;> rfl
  rw [hr]
  exact .refl nodes context

/-- Storing into a slot changes at most the value in it. -/
theorem after_store (index : Nat) (value : Float) (context : Context) :
    (store index value).after context =
      { context with values := context.values.set index value } := by
  rw [after, run_store]
  by_cases h : index < context.values.length
  · rw [if_pos h]
  · rw [if_neg h, List.set_eq_of_length_le (Nat.le_of_not_lt h)]

theorem framed_store {index : Nat} (h : ∃ node, nodes node ∧ index ∈ node.assigned.map (·.2))
    (value : Float) : Framed nodes (store index value) := by
  intro context
  rw [after_store]
  refine ⟨List.length_set, fun other hne => ?_, ⟨"", String.append_empty.symm⟩, fun _ => rfl,
    fun _ => rfl⟩
  have heq : index = other := by
    by_contra hn
    exact hne (List.getElem?_set_ne hn)
  exact heq ▸ h

theorem framed_write {node : Expr} (h : nodes node) (hp : node.isPrint) (text : String) :
    Framed nodes (write text) := by
  intro context
  refine ⟨rfl, fun _ hne => absurd rfl hne, ⟨text, rfl⟩, fun hn => ?_, fun _ => rfl⟩
  rw [hn node h] at hp
  cases hp

/-- An action that changes nothing but the random source. -/
theorem framed_of_random {node : Expr} (h : nodes node) (hd : node.isDraw) {action : Evaluation α}
    (ha : ∀ context : Context, ∃ a random, action.run context = .ok a { context with random }) :
    Framed nodes action := by
  intro context
  obtain ⟨a, random, hr⟩ := ha context
  rw [after_of_ok hr]
  refine ⟨rfl, fun _ hne => absurd rfl hne, ⟨"", String.append_empty.symm⟩, fun _ => rfl,
    fun hn => ?_⟩
  rw [hn node h] at hd
  cases hd

end Evaluation

/-! ## Expressions -/

namespace Expr

variable {e : Expr}

/-- Storing through an expression changes the slots of its targets only. -/
theorem framed_assignValue (h : ∀ target ∈ e.targets, ∃ node, nodes node ∧
    target.2 ∈ node.assigned.map (·.2)) (value : Float) : Framed nodes (e.assignValue value) := by
  fun_induction assignValue e value with
  | case1 name index l value => exact framed_store (h (name, index) List.mem_cons_self) value
  | case2 target source l value ihs iht | case3 op target source l value ihs iht =>
    obtain ⟨ht, hs⟩ := List.forall_mem_append.1 h
    exact (ihs hs).bind fun value => iht value ht
  | case4 delta target l value ih => exact ih h
  | case5 => exact framed_throw _

/-- A node among the given ones stores through its target. -/
theorem framed_target {node target : Expr} (h : nodes node) (ht : node.assigned = target.targets)
    (value : Float) : Framed nodes (target.assignValue value) :=
  framed_assignValue (fun _ hm => ⟨node, h, List.mem_map_of_mem (ht ▸ hm)⟩) value

theorem framed_apply {op : BinaryOp} (h : nodes (.binary op left right l)) (tolerance : Int)
    (a b : Float) : Framed nodes (op.apply tolerance a b) := by
  cases op with
  | arithmetic | comparison | both | either => exact framed_pure _
  | urand | nrand =>
    exact (framed_of_random h rfl fun _ => ⟨_, _, rfl⟩).bind fun _ => framed_pure _
  | unknown symbol => exact framed_throw _

mutual

/-- An evaluation stays within the frame of the nodes of its expression. The recursion is that of
`evaluate`. -/
theorem framed_evaluate (tolerance : Int) (e : Expr) (h : ∀ part, Part e part → nodes part) :
    Framed nodes (e.evaluate tolerance) := by
  have hself := h e .self
  have hchild (operand : Expr) (hc : operand ∈ e.children) (part : Expr) (hp : Part operand part) :
      nodes part := h part ((Part.of_mem_children hc).trans hp)
  match e with
  | .literal .. | .string .. => exact framed_pure _
  | .slot _ index _ => exact framed_read index
  | .unary op operand _ =>
    rw [evaluate]
    refine (framed_evaluate tolerance operand (hchild _ (by simp [children]))).bind fun value => ?_
    cases op with
    | function f => exact framed_pure _
    | rands => exact framed_of_random hself rfl fun _ => ⟨_, _, rfl⟩
  | .binary op left right _ =>
    rw [evaluate]
    exact (framed_evaluate tolerance left (hchild _ (by simp [children]))).bind fun a =>
      (framed_evaluate tolerance right (hchild _ (by simp [children]))).bind fun b =>
        framed_apply hself tolerance a b
  | .print arguments _ =>
    by_cases hone : ∃ name index place, arguments = [.slot name index place]
    · obtain ⟨name, index, place, rfl⟩ := hone
      rw [evaluate]
      exact (framed_read index).bind fun _ => (framed_write hself rfl _).bind fun _ =>
        framed_pure _
    · rw [evaluate]
      · exact (framed_evaluateAll tolerance arguments hchild 0.0).bind fun _ =>
          (framed_write hself rfl _).bind fun _ => framed_pure _
      · exact fun name index place h => hone ⟨name, index, place, h⟩
  | .assign target source _ =>
    rw [evaluate]
    exact (framed_evaluate tolerance source (hchild _ (by simp [children]))).bind fun value =>
      framed_target hself rfl value
  | .update op target source _ =>
    rw [evaluate]
    exact (framed_evaluate tolerance target (hchild _ (by simp [children]))).bind fun old =>
      (framed_evaluate tolerance source (hchild _ (by simp [children]))).bind fun value =>
        framed_target hself rfl _
  | .increment delta target _ =>
    rw [evaluate]
    exact (framed_evaluate tolerance target (hchild _ (by simp [children]))).bind fun old =>
      framed_target hself rfl _
  | .conditional test yes no _ =>
    rw [evaluate]
    refine (framed_evaluate tolerance test (hchild _ (by simp [children]))).bind fun value => ?_
    split
    · exact framed_evaluate tolerance yes (hchild _ (by simp [children]))
    · exact framed_evaluate tolerance no (hchild _ (by simp [children]))

theorem framed_evaluateAll (tolerance : Int) (es : List Expr)
    (h : ∀ e ∈ es, ∀ part, Part e part → nodes part) (last : Float) :
    Framed nodes (evaluateAll tolerance es last) := by
  match es with
  | [] => exact framed_pure _
  | e :: es =>
    obtain ⟨he, hes⟩ := List.forall_mem_cons.1 h
    by_cases hs : ∃ text l, e = .string text l
    · obtain ⟨text, l, rfl⟩ := hs
      rw [evaluateAll]
      exact (framed_evaluateAll tolerance es hes last).bind fun _ => framed_pure _
    · rw [evaluateAll]
      · exact (framed_evaluate tolerance e he).bind fun value =>
          (framed_evaluateAll tolerance es hes value).bind fun _ => framed_pure _
      · exact fun text l h => hs ⟨text, l, h⟩

end

end Expr

/-! ## Programs -/

namespace Program

/-- The expressions of the statements of a program, with those in its blocks. -/
def exprs : Program → List Expr
  | nil => []
  | equation e _ rest => e :: rest.exprs
  | branch test yes no _ rest => test :: (yes.exprs ++ no.exprs ++ rest.exprs)
  | loop test body _ rest => test :: (body.exprs ++ rest.exprs)

/-- A node of one of the program's expressions. -/
def Node (program : Program) (node : Expr) : Prop := ∃ e ∈ program.exprs, Expr.Part e node

variable {program : Program} {settings : Settings}

theorem framed_holds {test : Expr} (h : ∀ part, Expr.Part test part → nodes part)
    (tolerance : Int) : Framed nodes (holds tolerance test) :=
  (Expr.framed_evaluate tolerance test h).bind fun _ => framed_pure _

theorem framed_repeatWhile {test : Evaluation Bool} {body : Evaluation Unit}
    (ht : Framed nodes test) (hb : Framed nodes body) (rounds : Nat) :
    Framed nodes (repeatWhile test body rounds) := by
  induction rounds with
  | zero => exact framed_throw _
  | succ rounds ih =>
    refine ht.bind fun holds => ?_
    split
    · exact hb.bind fun _ => ih
    · exact framed_pure _

/-- A run stays within the frame of the nodes of its program, by induction on the program. -/
theorem framed_run (h : ∀ e ∈ program.exprs, ∀ part, Expr.Part e part → nodes part)
    (settings : Settings) : Framed nodes (program.run settings) := by
  induction program with
  | nil => exact framed_pure _
  | equation e line rest ih =>
    obtain ⟨he, hr⟩ := List.forall_mem_cons.1 h
    exact (Expr.framed_evaluate _ e he).bind fun _ => ih hr
  | branch test yes no line rest ihy ihn ihr =>
    obtain ⟨ht, hblocks⟩ := List.forall_mem_cons.1 h
    obtain ⟨hblocks, hr⟩ := List.forall_mem_append.1 hblocks
    obtain ⟨hy, hn⟩ := List.forall_mem_append.1 hblocks
    refine (framed_holds ht _).bind fun holds => ?_
    split
    · exact (ihy hy).bind fun _ => ihr hr
    · exact (ihn hn).bind fun _ => ihr hr
  | loop test body line rest ihb ihr =>
    obtain ⟨ht, hblocks⟩ := List.forall_mem_cons.1 h
    obtain ⟨hb, hr⟩ := List.forall_mem_append.1 hblocks
    exact (framed_repeatWhile (framed_holds ht _) (ihb hb) _).bind fun _ => ihr hr

end Program

/-! ## Texts -/

theorem Script.Draft.Forms.named {draft : Script.Draft} {program : Program}
    (h : draft.Forms names program) : ∀ e ∈ program.exprs, Expr.Named names e := by
  induction h with
  | done => exact List.forall_mem_nil _
  | equation he _ ih => exact List.forall_mem_cons.2 ⟨he.derives.named, ih⟩
  | branch ht _ _ _ ihy ihn ihr =>
    exact List.forall_mem_cons.2 ⟨ht.derives.named,
      List.forall_mem_append.2 ⟨List.forall_mem_append.2 ⟨ihy, ihn⟩, ihr⟩⟩
  | loop ht _ _ ihb ihr =>
    exact List.forall_mem_cons.2 ⟨ht.derives.named, List.forall_mem_append.2 ⟨ihb, ihr⟩⟩

theorem Script.named_parse (text : String) (names : List String) :
    ∀ e ∈ (parse text names).program.exprs, Expr.Named (parse text names).vars.names e := by
  by_cases h : (parse text names).isClean
  · exact (forms_of_isClean h).named
  · -- a text with which something is wrong leaves no statements
    have hprogram : (parse text names).program = .nil := if_neg h
    rw [hprogram]
    exact List.forall_mem_nil _

/-- What differs after an evaluation comes from nodes of the expression or the program: from
assignments the values of their targets, which are variables of the text; from `print` what is added
to the output; from the functions that draw the state of the random source. The number of slots
stays. -/
theorem evaluation_frame (text : String) (names : List String) :
    (∀ autoAdd : Bool,
      let equation := Equation.parse text names autoAdd
      ∀ e ∈ equation.expr,
        (∀ node, Expr.Part e node → ∀ target ∈ node.assigned,
          equation.vars.names[target.2]? = some target.1) ∧
        ∀ (tolerance : Int) (context : Context),
          Frame (Expr.Part e) context ((e.evaluate tolerance).after context)) ∧
    let script := Script.parse text names
    (∀ node, script.program.Node node → ∀ target ∈ node.assigned,
      script.vars.names[target.2]? = some target.1) ∧
    ∀ (settings : Settings) (context : Context),
      Frame script.program.Node context ((script.program.run settings).after context) := by
  refine ⟨fun autoAdd e he => ⟨fun node hp => ?_, fun tolerance => ?_⟩, ?_, fun settings => ?_⟩
  · obtain ⟨e', he', hf, -⟩ := Expr.exists_forms (Expr.isSome_parse_iff.1 (Option.isSome_of_mem he))
    cases Option.some.inj (he.symm.trans he')
    exact (hp.named hf.derives.named).getElem?_of_mem_assigned
  · exact Expr.framed_evaluate tolerance e fun part hp => hp
  · rintro node ⟨e, he, hp⟩
    exact (hp.named (Script.named_parse text names e he)).getElem?_of_mem_assigned
  · exact Program.framed_run (fun e he part hp => ⟨e, he, hp⟩) settings

end FormulaScript
