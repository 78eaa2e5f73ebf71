import FormulaScript.Proofs.Evaluation
import Mathlib.Data.List.Nodup

/-!
# Expressions on a store

An expression can be read without slots: over a store, which maps names to values. A name that has
not been assigned to reads as zero. Evaluation on slots does the same as long as every slot of the
expression is the place of its name.
-/

namespace FormulaScript

/-- Variables as a map from names to values, and what evaluations share. -/
structure Store extends Shared where
  value? : String → Option Float

namespace Store

/-- A store in which no name has a value. -/
def empty (shared : Shared) : Store := { shared with value? := fun _ => none }

/-- The value of a name, or zero. -/
def read (store : Store) (name : String) : Float := (store.value? name).getD 0.0

/-- The store in which the name has the value. -/
def assign (store : Store) (name : String) (value : Float) : Store :=
  { store with value? := Function.update store.value? name (some value) }

theorem value?_assign_of_ne (h : other ≠ name) (store : Store) (value : Float) :
    (store.assign name value).value? other = store.value? other :=
  Function.update_of_ne h _ _

@[simp] theorem read_assign_self (store : Store) (name : String) (value : Float) :
    (store.assign name value).read name = value := by
  simp [read, assign]

theorem read_assign_of_ne (h : other ≠ name) (store : Store) (value : Float) :
    (store.assign name value).read other = store.read other := by
  rw [read, value?_assign_of_ne h, read]

end Store

/-- An action on a store that may fail. -/
abbrev Interpretation := EStateM EvaluationError Store

/-- An action that uses no variables, as one on a store. -/
def Interpretation.ofEvaluation (action : Evaluation α) : Interpretation α := fun store =>
  match action.run { store.toShared with values := [] } with
  | .ok a left => .ok a { store with toShared := left.toShared }
  | .error failure left => .error failure { store with toShared := left.toShared }

namespace Expr

open Interpretation

/-- Gives a value to the variables that an expression assigns to, the right ones first. -/
def interpretAssign : Expr → Float → Interpretation Float
  | slot name _ _, value => do
    modify (·.assign name value)
    return value
  | assign target source _, value => do target.interpretAssign (← source.interpretAssign value)
  | update _ target source _, value => do target.interpretAssign (← source.interpretAssign value)
  | increment _ target _, value => target.interpretAssign value
  | e, _ => throw (.notAssignable e.kind)

mutual

/-- The value of an expression on a store. The slots of variables are not looked at. -/
def interpret (tolerance : Int) : Expr → Interpretation Float
  | literal value _ => return value
  | slot name _ _ => return (← get).read name
  | string .. => return 0.0
  | unary op operand _ => do
    let value ← operand.interpret tolerance
    match op with
    | .function f => return f.apply value
    | .rands => ofEvaluation (Evaluation.reseed value)
  | binary op left right _ => do
    let a ← left.interpret tolerance
    let b ← right.interpret tolerance
    ofEvaluation (op.apply tolerance a b)
  | print [slot name _ _] _ => do
    let value := (← get).read name
    ofEvaluation (Evaluation.write (valueLine name value ++ "\n"))
    return value
  | print arguments _ => do
    let (shown, value) ← interpretAll tolerance arguments 0.0
    ofEvaluation (Evaluation.write (" ".intercalate shown ++ "\n"))
    return value
  | assign target source _ => do
    let value ← source.interpret tolerance
    target.interpretAssign value
  | update op target source _ => do
    let old ← target.interpret tolerance
    let value ← source.interpret tolerance
    target.interpretAssign (op.apply old value)
  | increment delta target _ => do
    let old ← target.interpret tolerance
    target.interpretAssign (old + delta)
  | conditional test yes no _ => do
    let value ← test.interpret tolerance
    if Number.isTrue tolerance value then yes.interpret tolerance else no.interpret tolerance

/-- What `print` shows of its arguments, and the value of the last one that is no string, or else
the given one. -/
def interpretAll (tolerance : Int) : List Expr → Float → Interpretation (List String × Float)
  | [], last => return ([], last)
  | string text _ :: rest, last => do
    let (shown, value) ← interpretAll tolerance rest last
    return (text :: shown, value)
  | e :: rest, _ => do
    let value ← e.interpret tolerance
    let (shown, last) ← interpretAll tolerance rest value
    return (Number.format value :: shown, last)

end

/-- Every slot of the expression is the place of its name. -/
inductive Named (names : List String) : Expr → Prop
  | literal : Named names (.literal value l)
  | slot : names[index]? = some name → Named names (.slot name index l)
  | string : Named names (.string text l)
  | unary : Named names operand → Named names (.unary op operand l)
  | binary : Named names left → Named names right → Named names (.binary op left right l)
  | print : (∀ e ∈ es, Named names e) → Named names (.print es l)
  | assign : Named names target → Named names value → Named names (.assign target value l)
  | update : Named names target → Named names value → Named names (.update op target value l)
  | increment : Named names target → Named names (.increment delta target l)
  | conditional : Named names test → Named names yes → Named names no →
      Named names (.conditional test yes no l)

end Expr

/-! ## Slots for the names -/

/-- The names that have a value are among the given ones. -/
def Store.Within (names : List String) (store : Store) : Prop :=
  ∀ name ∉ names, store.value? name = none

/-- The slots of some names in order, with their values in the store. -/
def Store.context (names : List String) (store : Store) : Context :=
  { store.toShared with values := names.map store.read }

/-- On the slots of the names an action does what another does on the store. -/
def Simulates (names : List String) (action : Evaluation α) (spec : Interpretation α) : Prop :=
  ∀ store : Store, store.Within names →
    match spec.run store with
    | .ok a left =>
      action.run (store.context names) = .ok a (left.context names) ∧ left.Within names
    | .error failure left =>
      action.run (store.context names) = .error failure (left.context names) ∧ left.Within names

variable {names : List String}

theorem simulates_pure (a : α) : Simulates names (pure a) (pure a) := fun _ h => ⟨rfl, h⟩

theorem simulates_throw (failure : EvaluationError) :
    Simulates names (throw failure : Evaluation α) (throw failure) := fun _ h => ⟨rfl, h⟩

theorem Simulates.bind {action : Evaluation α} {spec : Interpretation α} {next : α → Evaluation β}
    {next' : α → Interpretation β} (h : Simulates names action spec)
    (h' : ∀ a, Simulates names (next a) (next' a)) :
    Simulates names (action >>= next) (spec >>= next') := by
  intro store hw
  have hs := h store hw
  rw [EStateM.run_bind, EStateM.run_bind]
  cases hr : spec.run store with
  | ok a left =>
    rw [hr] at hs
    rw [hs.1]
    exact h' a left hs.2
  | error failure left =>
    rw [hr] at hs
    rw [hs.1]
    exact ⟨rfl, hs.2⟩

theorem simulates_write (text : String) :
    Simulates names (Evaluation.write text) (.ofEvaluation (Evaluation.write text)) :=
  fun _ h => ⟨rfl, h⟩

theorem simulates_reseed (value : Float) :
    Simulates names (Evaluation.reseed value) (.ofEvaluation (Evaluation.reseed value)) :=
  fun _ h => ⟨rfl, h⟩

/-- A number made from a random draw. -/
theorem simulates_draw (source : Random → Float × Random) (f : Float → Float) :
    Simulates names (do return f (← Evaluation.draw source))
      (.ofEvaluation (do return f (← Evaluation.draw source))) :=
  fun _ h => ⟨rfl, h⟩

theorem simulates_apply (op : BinaryOp) (tolerance : Int) (a b : Float) :
    Simulates names (op.apply tolerance a b) (.ofEvaluation (op.apply tolerance a b)) := by
  cases op with
  | arithmetic | comparison | both | either => exact simulates_pure _
  | urand => exact simulates_draw Random.uniform fun u => a + u * (b - a)
  | nrand => exact simulates_draw Random.normal fun z => a + b * z
  | unknown symbol => exact simulates_throw _

theorem simulates_read (h : names[index]? = some name) :
    Simulates names (Evaluation.read index) (do return (← get).read name) := by
  intro store hw
  have hv : (store.context names).values[index]? = some (store.read name) := by
    simp [Store.context, h]
  refine ⟨?_, hw⟩
  simp [Evaluation.read, hv]

theorem Store.Within.assign {store : Store} (h : store.Within names) (hm : name ∈ names)
    (value : Float) : (store.assign name value).Within names := by
  intro other ho
  have hne : other ≠ name := fun he => ho (he ▸ hm)
  exact (value?_assign_of_ne hne store value).trans (h other ho)

/-- An assignment to a name changes the value in the slot of the name, and no other. -/
theorem Store.context_assign (hn : names.Nodup) (h : names[index]? = some name) (store : Store)
    (value : Float) : (store.assign name value).context names =
      { store.context names with values := (store.context names).values.set index value } := by
  obtain ⟨hi, rfl⟩ := List.getElem?_eq_some_iff.1 h
  have hv : names.map (store.assign names[index] value).read =
      (names.map store.read).set index value := by
    refine List.ext_getElem (by simp) fun i hi' _ => ?_
    rw [List.length_map] at hi'
    rw [List.getElem_map, List.getElem_set, List.getElem_map]
    split
    · next he =>
      subst he
      exact Store.read_assign_self ..
    · next he =>
      have hne : names[i] ≠ names[index] := mt (List.Nodup.getElem_inj_iff hn).1 (Ne.symm he)
      exact Store.read_assign_of_ne hne store value
  exact congrArg (fun values => Context.mk store.toShared values) hv

theorem simulates_store (hn : names.Nodup) (h : names[index]? = some name) (value : Float) :
    Simulates names (Evaluation.store index value) (do
      modify (·.assign name value)
      return value) := by
  intro store hw
  obtain ⟨hi, hname⟩ := List.getElem?_eq_some_iff.1 h
  have hlt : index < (store.context names).values.length := by
    rwa [Store.context, List.length_map]
  refine ⟨?_, hw.assign (hname ▸ List.getElem_mem hi) value⟩
  rw [Store.context_assign hn h]
  rw [Evaluation.run_store, if_pos hlt]

/-! ## Expressions -/

namespace Expr

variable {tolerance : Int}

theorem Named.simulates_assignValue (hn : names.Nodup) (h : Named names e) (value : Float) :
    Simulates names (e.assignValue value) (e.interpretAssign value) := by
  induction h generalizing value with
  | slot hi => exact simulates_store hn hi value
  | assign _ _ iht ihv => exact (ihv value).bind fun _ => iht _
  | update _ _ iht ihv => exact (ihv value).bind fun _ => iht _
  | increment _ ih => exact ih value
  | literal | string | unary | binary | print | conditional => exact simulates_throw _

theorem simulates_evaluateAll
    (h : ∀ e ∈ es, Simulates names (evaluate tolerance e) (interpret tolerance e)) (last : Float) :
    Simulates names (evaluateAll tolerance es last) (interpretAll tolerance es last) := by
  induction es generalizing last with
  | nil => exact simulates_pure _
  | cons e es ih =>
    obtain ⟨he, hes⟩ := List.forall_mem_cons.1 h
    cases e with
    | string => exact (ih hes _).bind fun _ => simulates_pure _
    | _ => exact he.bind fun _ => (ih hes _).bind fun _ => simulates_pure _

/-- Evaluation on slots is the interpretation on a store; the induction is on the expression. -/
theorem Named.simulates_evaluate (hn : names.Nodup) (h : Named names e) :
    Simulates names (e.evaluate tolerance) (e.interpret tolerance) := by
  induction h with
  | literal | string => exact simulates_pure _
  | slot hi => exact simulates_read hi
  | unary _ ih =>
    refine ih.bind fun value => ?_
    split
    · exact simulates_pure _
    · exact simulates_reseed value
  | binary _ _ ihl ihr => exact ihl.bind fun a => ihr.bind fun b => simulates_apply _ _ a b
  | @print es _ hs ih =>
    by_cases hone : ∃ name index place, es = [.slot name index place]
    · obtain ⟨name, index, place, rfl⟩ := hone
      cases hs _ List.mem_cons_self with
      | slot hi =>
        rw [evaluate, interpret]
        exact (simulates_read hi).bind fun _ => (simulates_write _).bind fun _ => simulates_pure _
    · have hne (name : String) (index : Nat) (place : Location) : es ≠ [.slot name index place] :=
        fun he => hone ⟨name, index, place, he⟩
      rw [evaluate, interpret]
      · exact (simulates_evaluateAll ih _).bind fun _ =>
          (simulates_write _).bind fun _ => simulates_pure _
      · exact hne
      · exact hne
  | assign ht _ _ ihv => exact ihv.bind fun value => ht.simulates_assignValue hn value
  | update ht _ iht ihv =>
    exact iht.bind fun _ => ihv.bind fun _ => ht.simulates_assignValue hn _
  | increment ht ih => exact ih.bind fun _ => ht.simulates_assignValue hn _
  | conditional _ _ _ iht ihy ihn =>
    refine iht.bind fun value => ?_
    split
    · exact ihy
    · exact ihn

theorem CallNode.named (h : CallNode function es l e) (hs : ∀ e ∈ es, Named names e) :
    Named names e := by
  cases h with
  | unary => exact .unary (hs _ (by simp))
  | binary => exact .binary (hs _ (by simp)) (hs _ (by simp))
  | conditional => exact .conditional (hs _ (by simp)) (hs _ (by simp)) (hs _ (by simp))

/-- In an expression of the grammar over some names every slot is the place of its name. -/
theorem Derives.named (h : Derives names ℓ ts e) : Named names e := by
  induction h with
  | tighter _ _ ih | plus _ _ ih | group _ _ _ ih => exact ih
  | string => exact .string
  | assign _ _ _ _ iht ihv => exact .assign iht ihv
  | update _ _ _ _ _ iht ihv => exact .update iht ihv
  | binary _ _ _ _ _ ihl ihr => exact .binary ihl ihr
  | minus _ _ ih => exact .unary ih
  | increment _ _ _ ih | decrement _ _ _ ih => exact .increment ih
  | number | pi => exact .literal
  | slot _ _ hi =>
    obtain ⟨hlt, hname, -⟩ := List.idxOf?_eq_some_iff.1 hi
    exact .slot (List.getElem?_eq_some_iff.2 ⟨hlt, hname⟩)
  | call _ _ _ _ _ _ he ih => exact he.named (List.forall_mem_map.2 ih)
  | print _ _ _ _ _ _ ih => exact .print (List.forall_mem_map.2 ih)

/-- A safe expression has a value on every store, and evaluation on slots gives the same. -/
theorem Named.exists_interpret {store : Store} (h : Named names e) (hs : e.Safe names.length)
    (hn : names.Nodup) (hw : store.Within names) (tolerance : Int) :
    ∃ value left, (e.interpret tolerance).run store = .ok value left ∧
      (e.evaluate tolerance).run (store.context names) = .ok value (left.context names) ∧
      left.Within names := by
  have hsimulates : Simulates names (e.evaluate tolerance) (e.interpret tolerance) :=
    h.simulates_evaluate hn
  have hsim := hsimulates store hw
  have hlength : (store.context names).values.length = names.length := List.length_map store.read
  obtain ⟨a, after, hok, -⟩ := (hs.keeps_evaluate tolerance).exists_ok hlength
  cases hr : (e.interpret tolerance).run store with
  | ok value left =>
    rw [hr] at hsim
    exact ⟨value, left, rfl, hsim⟩
  | error failure left =>
    rw [hr, hok] at hsim
    cases hsim.1

end Expr

end FormulaScript
