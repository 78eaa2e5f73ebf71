import FormulaScript.Proofs.Script.Literals
import Mathlib.Algebra.Ring.Parity

/-!
# Structure characters in units

A semicolon or a brace of a script ends the unit that it stands in, unless it is in a string. So in
a unit it stands after an odd number of quotes, or it is a semicolon at the end, or it is a brace
and the whole unit.
-/

namespace FormulaScript.Script

open Text

/-- The characters that end statements and blocks. -/
def marks : List Char := [';', '{', '}']

/-- Whether a text ends in a string that it opens. -/
def EndsInString (text : List Char) : Prop := Odd (text.count '"')

instance (text : List Char) : Decidable (EndsInString text) :=
  inferInstanceAs (Decidable (Odd _))

/-- Every mark of the unit is in a string, or ends the unit. -/
def SourceUnit.Marked (unit : SourceUnit) : Prop :=
  ∀ before c after, unit.text = before ++ c :: after → c ∈ marks →
    EndsInString before ∨ after = [] ∧ (before = [] ∨ c = ';')

/-! ## Units that are begun -/

/-- Every mark of a unit that is begun, in reverse, is in a string. -/
def Unmarked (pending : List Char) : Prop :=
  ∀ before c after, pending = after ++ c :: before → c ∈ marks → EndsInString before

variable {pending before after : List Char} {line : Nat}

theorem unmarked_nil : Unmarked [] := by
  intro before c after h
  cases after <;> cases h

theorem Unmarked.cons (h : Unmarked pending) (hc : c ∈ marks → EndsInString pending) :
    Unmarked (c :: pending) := by
  intro before d after he hd
  cases after with
  | nil =>
    obtain ⟨rfl, rfl⟩ := List.cons.inj he
    exact hc hd
  | cons e after => exact h before d after (List.cons.inj he).2 hd

theorem count_of_blank {text : List Char} (h : ∀ c ∈ text, isBlank c) : text.count '"' = 0 := by
  refine List.count_eq_zero.2 fun hq => ?_
  exact absurd (h _ hq) (by decide)

theorem endsInString_append_of_blank {blanks text : List Char} (h : ∀ c ∈ blanks, isBlank c) :
    EndsInString (blanks ++ text) ↔ EndsInString text := by
  rw [EndsInString, List.count_append, count_of_blank h, Nat.zero_add]
  rfl

theorem endsInString_reverse {text : List Char} :
    EndsInString text.reverse ↔ EndsInString text := by
  rw [EndsInString, List.count_reverse]
  rfl

theorem endsInString_push (pending : List Char) (hc : c ≠ '"') :
    EndsInString (push pending c) ↔ EndsInString pending := by
  have hcons (d : Char) (hd : d ≠ '"') : EndsInString (d :: pending) ↔ EndsInString pending := by
    rw [EndsInString, List.count_cons_of_ne hd]
    rfl
  unfold push
  split
  · split
    · exact .rfl
    · exact hcons ' ' (by decide)
  · exact hcons c hc

theorem endsInString_quote : EndsInString ('"' :: pending) ↔ ¬ EndsInString pending := by
  rw [EndsInString, List.count_cons_self, Nat.odd_add_one]
  rfl

theorem Unmarked.push (h : Unmarked pending) (hc : c ∉ marks) : Unmarked (push pending c) := by
  unfold Script.push
  split
  · split
    · exact h
    · exact h.cons fun hm => absurd hm (by decide)
  · exact h.cons fun hm => absurd hm hc

/-- What holds of a unit that is begun, in reverse, when the reading is in a mode: its marks are in
strings, and it ends in one exactly if the mode says so. -/
structure Begun (mode : Mode) (pending : List Char) : Prop where
  unmarked : Unmarked pending
  string : mode = .string ↔ EndsInString pending

theorem begun_nil {mode : Mode} (h : mode ≠ .string) : Begun mode [] :=
  ⟨unmarked_nil, iff_of_false h (by decide)⟩

theorem Begun.skip {mode mode' : Mode} (h : Begun mode pending) (hm : mode ≠ .string)
    (hm' : mode' ≠ .string) : Begun mode' pending :=
  ⟨h.unmarked, iff_of_false hm' (mt h.string.2 hm)⟩

theorem Begun.char (h : Begun .string pending) (c : Char) :
    Begun (if c = '"' then .code else .string) (c :: pending) := by
  have hs := h.string.1 rfl
  refine ⟨h.unmarked.cons fun _ => hs, ?_⟩
  by_cases hc : c = '"'
  · subst hc
    simpa [endsInString_quote] using hs
  · simpa [hc, EndsInString, List.count_cons_of_ne hc] using hs

theorem Begun.quote (h : Begun .code pending) : Begun .string ('"' :: pending) := by
  refine ⟨h.unmarked.cons fun hq => absurd hq (by decide), iff_of_true rfl ?_⟩
  rw [endsInString_quote]
  exact mt h.string.2 nofun

theorem Begun.push (h : Begun .code pending) (hq : c ≠ '"') (hc : c ∉ marks) :
    Begun .code (push pending c) :=
  ⟨h.unmarked.push hc, by rw [endsInString_push pending hq]; exact h.string⟩

/-! ## Complete units -/

/-- A unit is what is left of the text that it is flushed from between blanks. -/
theorem exists_of_mem_flush {unit : SourceUnit} (h : unit ∈ flush line pending) :
    ∃ left right, (∀ c ∈ left, isBlank c) ∧ (∀ c ∈ right, isBlank c) ∧
      pending.reverse = left ++ unit.text ++ right := by
  unfold flush at h
  dsimp only at h
  split at h
  · cases h
  · cases List.mem_singleton.1 h
    exact exists_trim pending.reverse

theorem endsInString_of_reverse {left : List Char} (after : List Char) (h : Unmarked pending)
    (hc : c ∈ marks) (hl : ∀ c ∈ left, isBlank c)
    (he : pending.reverse = left ++ before ++ c :: after) : EndsInString before := by
  have hr : pending = after.reverse ++ c :: (left ++ before).reverse := by
    rw [← List.reverse_reverse pending, he]
    simp
  have hs := h _ c _ hr hc
  rwa [endsInString_reverse, endsInString_append_of_blank hl] at hs

theorem Unmarked.flush {unit : SourceUnit} (h : Unmarked pending) (hu : unit ∈ flush line pending) :
    unit.Marked := by
  obtain ⟨left, right, hl, -, he⟩ := exists_of_mem_flush hu
  intro before c after ht hc
  refine .inl (endsInString_of_reverse (after ++ right) h hc hl ?_)
  rw [he, ht]
  simp

theorem Unmarked.flush_semicolon {unit : SourceUnit} (h : Unmarked pending)
    (hu : unit ∈ Script.flush line (';' :: pending)) : unit.Marked := by
  obtain ⟨left, right, hl, hr, he⟩ := exists_of_mem_flush hu
  intro before c after ht hc
  have he : pending.reverse ++ [';'] = left ++ before ++ c :: (after ++ right) := by
    rw [← List.reverse_cons, he, ht]
    simp
  rcases List.eq_nil_or_concat (after ++ right) with hn | ⟨more, last, hm⟩
  · rw [hn] at he
    obtain ⟨-, hlast⟩ := List.append_inj' he rfl
    exact .inr ⟨(List.append_eq_nil_iff.1 hn).1, .inr (List.cons.inj hlast).1.symm⟩
  · rw [hm, List.concat_eq_append, ← List.cons_append, ← List.append_assoc] at he
    obtain ⟨hp, -⟩ := List.append_inj' he rfl
    exact .inl (endsInString_of_reverse _ h hc hl hp)

theorem marked_singleton (line : Nat) (c : Char) : SourceUnit.Marked ⟨line, [c]⟩ := by
  intro before d after h _
  obtain ⟨rfl, h⟩ | ⟨-, h⟩ := List.singleton_eq_append_iff.1 h
  · exact .inr ⟨(List.cons.inj h).2.symm, .inl rfl⟩
  · cases h

theorem nextLine_ne_string (mode : Mode) : mode.nextLine ≠ .string := by
  cases mode <;> nofun

/-- The induction is on the reading; what is kept is what holds of the unit that is begun. -/
theorem marked_unitsFrom (mode : Mode) (pending : List Char) (line : Nat) (text : List Char)
    (h : Begun mode pending) : ∀ unit ∈ unitsFrom mode pending line text, unit.Marked := by
  fun_induction unitsFrom mode pending line text with
  | case1 mode pending line => exact fun _ => h.unmarked.flush
  | case2 mode pending line rest ih =>
    exact List.forall_mem_append.2
      ⟨fun _ => h.unmarked.flush, ih (begun_nil (nextLine_ne_string mode))⟩
  | case3 pending line rest ih | case8 pending line rest ih | case9 pending line rest ih
  | case10 pending line rest ih => exact ih (h.skip (by simp) (by simp))
  | case4 pending line c rest hn hs ih => exact ih h
  | case5 pending line c rest hn ih => exact ih h
  | case6 pending line c rest hn ih => exact ih (h.char c)
  | case7 pending line rest ih => exact ih h.quote
  | case11 pending line c rest hn hq hb hl hh hc ih =>
    exact List.forall_mem_append.2 ⟨fun _ => h.unmarked.flush,
      List.forall_mem_cons.2 ⟨marked_singleton line c, ih (begun_nil (by simp))⟩⟩
  | case12 pending line rest hn hq hb hl hh hc ih =>
    exact List.forall_mem_append.2
      ⟨fun _ => h.unmarked.flush_semicolon, ih (begun_nil (by simp))⟩
  | case13 pending line c rest hn hq hb hl hh hc hs ih =>
    have hmark : c ∉ marks := by
      simp only [marks, List.mem_cons, List.not_mem_nil, or_false]
      simp_all
    exact ih (h.push hq hmark)

/-- In every unit of a script a mark is in a string, or ends the unit. -/
theorem marked_units (script : List Char) : ∀ unit ∈ units script, unit.Marked :=
  marked_unitsFrom .code [] 1 script (begun_nil nofun)

end FormulaScript.Script
