import FormulaScript.Expr.Reader

/-!
# How a reading step ends

`Read.Ends step reader done stopped` says what holds when a step has been run from a reader: `done`
of its result and the reader it leaves, or `stopped` of the reader at which it stops at a fault.
The equations for the basic steps turn such a statement about a step into one about its parts. The
equations for runs follow a step whose parts are known to succeed.
-/

namespace FormulaScript

namespace Read

/-- A run of the step from the reader ends with a result and a reader for which `done` holds, or
stops at a reader for which `stopped` holds. -/
def Ends (step : Read α) (reader : Reader) (done : α → Reader → Prop)
    (stopped : Reader → Prop) : Prop :=
  match step.run reader with
  | .ok a left => done a left
  | .error _ left => stopped left

variable {done : α → Reader → Prop} {stopped : Reader → Prop} {reader : Reader}

theorem Ends.of_ok {step : Read α} (h : step.Ends reader done stopped)
    (hr : step.run reader = .ok a left) : done a left := by
  rwa [Ends, hr] at h

theorem Ends.of_error {step : Read α} (h : step.Ends reader done stopped)
    (hr : step.run reader = .error s left) : stopped left := by
  rwa [Ends, hr] at h

theorem Ends.mono {done' : α → Reader → Prop} {stopped' : Reader → Prop} {step : Read α}
    (h : step.Ends reader done stopped) (hd : ∀ a left, done a left → done' a left)
    (hs : ∀ left, stopped left → stopped' left) : step.Ends reader done' stopped' := by
  unfold Ends at h ⊢
  split at h
  · exact hd _ _ h
  · exact hs _ h

@[simp] theorem ends_pure {a : α} : Ends (pure a) reader done stopped ↔ done a reader := .rfl

@[simp] theorem ends_bind {step : Read β} {next : β → Read α} :
    Ends (step >>= next) reader done stopped ↔
      step.Ends reader (fun b left => (next b).Ends left done stopped) stopped := by
  unfold Ends
  rw [EStateM.run_bind]
  cases step.run reader <;> rfl

@[simp] theorem ends_map {step : Read β} {f : β → α} :
    Ends (f <$> step) reader done stopped ↔
      step.Ends reader (fun b left => done (f b) left) stopped := by
  rw [map_eq_pure_bind, ends_bind]
  rfl

@[simp] theorem ends_get {done : Reader → Reader → Prop} :
    Ends get reader done stopped ↔ done reader reader := .rfl

@[simp] theorem ends_set {done : PUnit → Reader → Prop} {reader' : Reader} :
    Ends (set reader') reader done stopped ↔ done () reader' := .rfl

@[simp] theorem ends_modify {done : PUnit → Reader → Prop} {f : Reader → Reader} :
    Ends (modify f) reader done stopped ↔ done () (f reader) := .rfl

@[simp] theorem ends_peek {done : Token → Reader → Prop} :
    Ends peek reader done stopped ↔ done reader.next reader := .rfl

@[simp] theorem ends_take {done : Token → Reader → Prop} :
    Ends take reader done stopped ↔ done reader.next reader.skip := .rfl

@[simp] theorem ends_report {done : Unit → Reader → Prop} :
    Ends (report problem token) reader done stopped ↔ done () (reader.report problem token) := .rfl

@[simp] theorem ends_fail :
    Ends (fail problem token : Read α) reader done stopped ↔
      stopped (reader.report problem token) := .rfl

@[simp] theorem ends_failHere :
    Ends (failHere problem : Read α) reader done stopped ↔
      stopped (reader.report problem reader.next) := .rfl

@[simp] theorem ends_sees {done : Bool → Reader → Prop} :
    Ends (sees text) reader done stopped ↔ done (reader.next.isDelimiter text) reader := .rfl

@[simp] theorem ends_accept {done : Bool → Reader → Prop} :
    Ends (accept text) reader done stopped ↔
      if reader.next.isDelimiter text then done true reader.skip else done false reader := by
  unfold accept
  rw [ends_bind, ends_sees]
  split <;> rfl

@[simp] theorem ends_close {done : PUnit → Reader → Prop} :
    Ends close reader done stopped ↔
      if reader.next.isDelimiter ")" then done () reader.skip
      else stopped (reader.report .unbalancedParentheses reader.next) := by
  unfold close
  rw [ends_bind, ends_accept]
  split <;> simp

/-! ## Runs that end with a result -/

section

variable {reader left : Reader}

theorem run_bind_of_ok {step : Read β} {next : β → Read α} (h : step.run reader = .ok b left) :
    (step >>= next).run reader = (next b).run left := by
  rw [EStateM.run_bind, h]

theorem run_get (reader : Reader) : (get : Read Reader).run reader = .ok reader reader := rfl

theorem run_modify (f : Reader → Reader) (reader : Reader) :
    (modify f : Read PUnit).run reader = .ok () (f reader) := rfl

theorem run_peek (reader : Reader) : peek.run reader = .ok reader.next reader := rfl

theorem run_take (reader : Reader) : take.run reader = .ok reader.next reader.skip := rfl

theorem run_sees (text : String) (reader : Reader) :
    (sees text).run reader = .ok (reader.next.isDelimiter text) reader := rfl

theorem run_accept_of_true (h : reader.next.isDelimiter text) :
    (accept text).run reader = .ok true reader.skip := by
  unfold accept
  rw [run_bind_of_ok (run_sees _ _), h]
  rfl

theorem run_accept_of_false (h : reader.next.isDelimiter text = false) :
    (accept text).run reader = .ok false reader := by
  unfold accept
  rw [run_bind_of_ok (run_sees _ _), h]
  rfl

theorem run_close (h : reader.next.isDelimiter ")") :
    close.run reader = .ok () reader.skip := by
  unfold close
  rw [run_bind_of_ok (run_accept_of_true h)]
  rfl

end

/-! ## Results of which some may be missing -/

theorem mapM_id_of_mem {es : List (Option α)} (h : none ∈ es) : es.mapM id = none := by
  induction es with
  | nil => cases h
  | cons e es ih =>
    cases e with
    | none => rfl
    | some e => simp [ih (by simpa using h)]

theorem mapM_id_map_some (f : β → α) (bs : List β) :
    (bs.map (some <| f ·)).mapM id = some (bs.map f) := by
  induction bs with
  | nil => rfl
  | cons b bs ih => simp [ih]

end Read

end FormulaScript
