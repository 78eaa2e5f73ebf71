import FormulaScript.Variables

/-!
# Variables that grow

A table of variables only grows: names are added after the others, each once and with the value
zero, so a name keeps its slot. What several names add are the new ones among them, each where it
comes first, as far as there is room.
-/

namespace FormulaScript.Variables

/-- Names keep their places when others are added after them. -/
theorem idxOf?_of_prefix {names names' : List String} {name : String} {index : Nat}
    (hn : names <+: names') (h : names.idxOf? name = some index) :
    names'.idxOf? name = some index := by
  obtain ⟨others, rfl⟩ := hn
  simp_all [List.idxOf?, List.findIdx?_append]

theorem idxOf?_append_self {names : List String} {name : String} (h : name ∉ names) :
    (names ++ [name]).idxOf? name = some names.length := by
  have hn : names.findIdx? (· == name) = none := List.idxOf?_eq_none_iff.2 h
  simp [List.idxOf?, List.findIdx?_append, hn]

/-- The second table is the first with more names after its own, each new and with the value
zero. -/
structure Extends (vars vars' : Variables) : Prop where
  names : ∃ new, vars'.names = vars.names ++ new ∧
    vars'.values = vars.values ++ List.replicate new.length 0.0
  nodup : vars.names.Nodup → vars'.names.Nodup
  capacity : vars'.capacity = vars.capacity

namespace Extends

variable {vars vars' vars'' : Variables}

theorem refl (vars : Variables) : vars.Extends vars := ⟨⟨[], by simp⟩, id, rfl⟩

theorem trans (h : vars.Extends vars') (h' : vars'.Extends vars'') : vars.Extends vars'' := by
  obtain ⟨⟨new, hn, hv⟩, hd, hc⟩ := h
  obtain ⟨⟨new', hn', hv'⟩, hd', hc'⟩ := h'
  refine ⟨⟨new ++ new', ?_, ?_⟩, hd' ∘ hd, hc'.trans hc⟩
  · rw [hn', hn, List.append_assoc]
  · rw [hv', hv, List.append_assoc, List.replicate_append_replicate, List.length_append]

theorem isPrefix (h : vars.Extends vars') : vars.names <+: vars'.names := by
  obtain ⟨new, hn, -⟩ := h.names
  exact ⟨new, hn.symm⟩

theorem length_values (h : vars.Extends vars') (hl : vars.values.length = vars.names.length) :
    vars'.values.length = vars'.names.length := by
  obtain ⟨new, hn, hv⟩ := h.names
  simp [hn, hv, hl]

end Extends

/-- The second table comes from the first by adding names, or is the same if none may be added. -/
structure Grows (autoAdd : Bool) (vars vars' : Variables) : Prop extends Extends vars vars' where
  fixed : autoAdd = false → vars' = vars

theorem Grows.refl (vars : Variables) : Grows autoAdd vars vars := ⟨.refl vars, fun _ => rfl⟩

theorem Grows.trans (h : Grows autoAdd vars vars') (h' : Grows autoAdd vars' vars'') :
    Grows autoAdd vars vars'' :=
  ⟨h.toExtends.trans h'.toExtends, fun hf => (h'.fixed hf).trans (h.fixed hf)⟩

theorem extends_append {vars : Variables} {name : String} (h : name ∉ vars.names) :
    vars.Extends (vars.append name) where
  names := ⟨[name], rfl, rfl⟩
  nodup hd := by simpa [append, List.nodup_append, hd] using fun _ ha => ne_of_mem_of_not_mem ha h
  capacity := rfl

theorem extends_add (vars : Variables) (name : String) : vars.Extends (vars.add name).2 := by
  unfold add
  split
  · exact .refl vars
  · next h =>
    split
    · exact .refl vars
    · exact extends_append (List.idxOf?_eq_none_iff.1 h)

theorem mem_names_of_add {vars : Variables} {name new : String}
    (h : name ∈ (vars.add new).2.names) : name ∈ vars.names ∨ name = new := by
  unfold add at h
  split at h
  · exact .inl h
  · split at h
    · exact .inl h
    · simpa [append] using h

/-- The slot that `add` gives to a name is the place of the name in the table that it leaves. -/
theorem idxOf?_of_add {vars : Variables} {name : String} {index : Nat}
    (h : (vars.add name).1 = some index) : (vars.add name).2.names.idxOf? name = some index := by
  unfold add at h ⊢
  cases hi : vars.indexOf? name with
  | some i =>
    simp only [hi, Option.some.injEq] at h ⊢
    exact h ▸ hi
  | none =>
    have hn : name ∉ vars.names := List.idxOf?_eq_none_iff.1 hi
    by_cases hf : vars.isFull
    · simp [hi, hf] at h
    · simp only [hi, hf, Bool.false_eq_true, if_false, Option.some.injEq] at h ⊢
      exact h ▸ idxOf?_append_self hn

/-- The table of a list of names extends the empty one. -/
theorem extends_ofNames (names : List String) (capacity : Option Nat) :
    Extends { capacity } (ofNames names capacity) := by
  unfold ofNames
  suffices ∀ vars : Variables, vars.Extends (names.foldl (fun vars name =>
      if vars.names.contains name then vars else vars.append name) vars) from this _
  induction names with
  | nil => exact .refl
  | cons name names ih =>
    intro vars
    rw [List.foldl_cons]
    split
    · exact ih vars
    · next h => exact (extends_append (by simpa using h)).trans (ih _)

theorem nodup_ofNames (names : List String) (capacity : Option Nat) :
    (ofNames names capacity).names.Nodup :=
  (extends_ofNames names capacity).nodup List.nodup_nil

theorem length_values_ofNames (names : List String) (capacity : Option Nat) :
    (ofNames names capacity).values.length = (ofNames names capacity).names.length :=
  (extends_ofNames names capacity).length_values rfl

/-- Distinct names are kept as they are. -/
theorem names_ofNames {names : List String} (h : names.Nodup) (capacity : Option Nat) :
    (ofNames names capacity).names = names := by
  unfold ofNames
  suffices ∀ vars : Variables, (vars.names ++ names).Nodup → (names.foldl (fun vars name =>
      if vars.names.contains name then vars else vars.append name) vars).names =
        vars.names ++ names from this _ h
  induction names with
  | nil => simp
  | cons name names ih =>
    intro vars hd
    have hn : name ∉ vars.names := fun hm =>
      (List.nodup_append.1 hd).2.2 _ hm _ List.mem_cons_self rfl
    rw [List.foldl_cons, if_neg (by simpa using hn), ih (List.nodup_cons.1 h).2]
    · simp [append]
    · simpa [append] using hd

/-! ## Names added in turn -/

/-- Names added one after the other. -/
def gather (vars : Variables) (names : List String) : Variables :=
  names.foldl (fun vars name => (vars.add name).2) vars

/-- The names for which there is room. -/
def room (vars : Variables) (names : List String) : List String :=
  match vars.capacity with
  | none => names
  | some capacity => names.take (capacity - vars.names.length)

/-- The names that have no slot, each once. -/
def unknown (vars : Variables) (names : List String) : List String :=
  (names.filter (· ∉ vars.names)).eraseDups

section

variable {vars : Variables} {name : String} {names : List String}

theorem gather_append (vars : Variables) (names others : List String) :
    vars.gather (names ++ others) = (vars.gather names).gather others :=
  List.foldl_append

theorem add_of_mem (h : name ∈ vars.names) : (vars.add name).2 = vars := by
  obtain ⟨index, hi⟩ := Option.isSome_iff_exists.1 (List.isSome_idxOf?.2 h)
  simp [add, indexOf?, hi]

theorem add_of_notMem (h : name ∉ vars.names) :
    vars.add name = if vars.isFull then (none, vars)
      else (some vars.names.length, vars.append name) := by
  have hi : vars.indexOf? name = none := List.idxOf?_eq_none_iff.2 h
  rw [add, hi]

theorem add_of_isFull (h : vars.isFull) (name : String) : (vars.add name).2 = vars := by
  by_cases hm : name ∈ vars.names
  · exact add_of_mem hm
  · rw [add_of_notMem hm, if_pos h]

theorem gather_of_isFull (h : vars.isFull) (names : List String) : vars.gather names = vars := by
  induction names with
  | nil => rfl
  | cons name names ih =>
    change gather (vars.add name).2 names = vars
    rw [add_of_isFull h, ih]

theorem extends_gather (vars : Variables) (names : List String) :
    vars.Extends (vars.gather names) := by
  induction names generalizing vars with
  | nil => exact .refl vars
  | cons name names ih => exact (extends_add vars name).trans (ih _)

/-- A name is left out only when there is no room for any other. -/
theorem isFull_of_notMem_gather (h : name ∈ names) (hn : name ∉ (vars.gather names).names) :
    (vars.gather names).isFull := by
  induction names generalizing vars with
  | nil => cases h
  | cons first names ih =>
    change name ∉ (gather (vars.add first).2 names).names at hn
    change (gather (vars.add first).2 names).isFull
    rcases List.mem_cons.1 h with rfl | h
    · have hm : name ∉ (vars.add name).2.names := fun hm =>
        hn ((extends_gather _ names).isPrefix.subset hm)
      have hf : vars.isFull := by
        refine Decidable.byContradiction fun hf => ?_
        have hv : name ∉ vars.names := fun hv => hm (by rwa [add_of_mem hv])
        rw [add_of_notMem hv, if_neg hf] at hm
        simp [append] at hm
      rwa [add_of_isFull hf, gather_of_isFull hf]
    · exact ih h hn

theorem room_of_isFull (h : vars.isFull) (names : List String) : vars.room names = [] := by
  unfold isFull at h
  unfold room
  cases hc : vars.capacity with
  | none => simp [hc] at h
  | some capacity =>
    have hle : capacity ≤ vars.names.length := by simpa [hc] using h
    simp [Nat.sub_eq_zero_of_le hle]

theorem room_cons (h : ¬ vars.isFull) (name : String) (names : List String) :
    vars.room (name :: names) = name :: (vars.append name).room names := by
  unfold isFull at h
  unfold room
  cases hc : vars.capacity with
  | none => simp [append, hc]
  | some capacity =>
    have hlt : vars.names.length < capacity := by simpa [hc] using h
    have hleft : capacity - vars.names.length = capacity - (vars.names.length + 1) + 1 := by omega
    simp [append, hc, hleft]

theorem unknown_cons_of_mem (h : name ∈ vars.names) (names : List String) :
    vars.unknown (name :: names) = vars.unknown names := by
  simp [unknown, h]

theorem unknown_cons (h : name ∉ vars.names) (names : List String) :
    vars.unknown (name :: names) = name :: (vars.append name).unknown names := by
  have hf : ((names.filter (· ∉ vars.names)).filter (!· == name)) =
      names.filter (· ∉ (vars.append name).names) := by
    rw [List.filter_filter]
    refine List.filter_congr fun other _ => ?_
    by_cases he : other = name <;> simp [append, he]
  rw [unknown, List.filter_cons_of_pos (by simpa using h), List.eraseDups_cons, hf, unknown]

@[simp] theorem unknown_nil : vars.unknown [] = [] := rfl

@[simp] theorem room_nil : vars.room [] = [] := by
  unfold room
  cases vars.capacity <;> simp

theorem unknown_of_names_eq_nil (h : vars.names = []) (names : List String) :
    vars.unknown names = names.eraseDups := by
  have hall : names.filter (· ∉ vars.names) = names := List.filter_eq_self.2 (by simp [h])
  rw [unknown, hall]

/-- Of several names the new ones are added, each once, as far as there is room. -/
theorem names_gather (vars : Variables) (names : List String) :
    (vars.gather names).names = vars.names ++ vars.room (vars.unknown names) := by
  induction names generalizing vars with
  | nil => simp [gather]
  | cons name names ih =>
    change (gather (vars.add name).2 names).names = _
    by_cases hm : name ∈ vars.names
    · rw [add_of_mem hm, ih, unknown_cons_of_mem hm]
    · by_cases hf : vars.isFull
      · rw [add_of_isFull hf, gather_of_isFull hf, room_of_isFull hf, List.append_nil]
      · rw [add_of_notMem hm, if_neg hf, ih, unknown_cons hm, room_cons hf]
        simp [append]

theorem names_gather_empty (names : List String) : (gather {} names).names = names.eraseDups := by
  rw [names_gather, unknown_of_names_eq_nil rfl]
  rfl

end

/-- A table that is made from names has each of them once, in order of their first places. -/
theorem names_ofNames_eq (names : List String) (capacity : Option Nat) :
    (ofNames names capacity).names = names.eraseDups := by
  unfold ofNames
  suffices ∀ vars : Variables, (names.foldl (fun vars name =>
      if vars.names.contains name then vars else vars.append name) vars).names =
        vars.names ++ vars.unknown names by
    rw [this, unknown_of_names_eq_nil rfl, List.nil_append]
  induction names with
  | nil => simp
  | cons name names ih =>
    intro vars
    rw [List.foldl_cons, ih]
    by_cases hm : name ∈ vars.names
    · rw [if_pos (by simpa using hm), unknown_cons_of_mem hm]
    · rw [if_neg (by simpa using hm), unknown_cons hm]
      simp [append]

theorem nodup_eraseDups (names : List String) : names.eraseDups.Nodup :=
  names_ofNames_eq names none ▸ nodup_ofNames names none

theorem eraseDups_of_nodup {names : List String} (h : names.Nodup) : names.eraseDups = names :=
  (names_ofNames_eq names none).symm.trans (names_ofNames h none)

theorem length_eraseDups_le (names : List String) : names.eraseDups.length ≤ names.length :=
  (nodup_eraseDups names).length_le_of_subset fun _ h => List.mem_eraseDups.1 h

end FormulaScript.Variables
