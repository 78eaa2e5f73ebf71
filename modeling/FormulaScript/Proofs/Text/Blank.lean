import FormulaScript.Text.Blank
import Mathlib.Data.List.DropRight
import Mathlib.Data.List.TakeWhile

/-!
# Blanks at the ends of texts
-/

namespace FormulaScript.Text

variable {blanks text : List Char}

theorem trimLeft_append_of_blank (h : ∀ c ∈ blanks, isBlank c) (text : List Char) :
    trimLeft (blanks ++ text) = trimLeft text :=
  List.dropWhile_append_of_pos h

theorem trimLeft_eq_nil_iff : trimLeft text = [] ↔ ∀ c ∈ text, isBlank c :=
  List.dropWhile_eq_nil_iff

theorem trimLeft_cons (h : isBlank c = false) (text : List Char) :
    trimLeft (c :: text) = c :: text :=
  List.dropWhile_cons_of_neg (by simp [h])

theorem exists_trimLeft (text : List Char) :
    ∃ blanks, (∀ c ∈ blanks, isBlank c) ∧ text = blanks ++ trimLeft text :=
  ⟨text.takeWhile isBlank, fun c hc => by simpa using List.all_eq_true.1 List.all_takeWhile c hc,
    List.takeWhile_append_dropWhile.symm⟩

theorem trimRight_append_of_blank (h : ∀ c ∈ blanks, isBlank c) (text : List Char) :
    trimRight (text ++ blanks) = trimRight text := by
  unfold trimRight
  rw [List.reverse_append, List.dropWhile_append_of_pos (by simpa using h)]

theorem trimRight_append (h : isBlank c = false) (text : List Char) :
    trimRight (text ++ [c]) = text ++ [c] := by
  simp [trimRight, h]

theorem trimLeft_append (h : isBlank c = false) (text : List Char) :
    trimLeft (text ++ [c]) = trimLeft text ++ [c] := by
  unfold trimLeft
  rw [List.dropWhile_append]
  split
  · next hn => simp [List.isEmpty_iff.1 hn, h]
  · rfl

theorem trimLeft_append_of_ne (h : trimLeft text ≠ []) (more : List Char) :
    trimLeft (text ++ more) = trimLeft text ++ more := by
  unfold trimLeft at h ⊢
  rw [List.dropWhile_append, if_neg (by simpa using h)]

theorem trim_append_of_blank (h : ∀ c ∈ blanks, isBlank c) (text : List Char) :
    trim (text ++ blanks) = trim text := by
  unfold trim
  by_cases hb : ∀ c ∈ text, isBlank c
  · rw [trimLeft_eq_nil_iff.2 hb, trimLeft_eq_nil_iff.2 (List.forall_mem_append.2 ⟨hb, h⟩)]
  · have hne : trimLeft text ≠ [] := fun he => hb (trimLeft_eq_nil_iff.1 he)
    rw [trimLeft_append_of_ne hne, trimRight_append_of_blank h]

theorem trim_of_blank (h : ∀ c ∈ text, isBlank c) : trim text = [] := by
  rw [trim, trimLeft_eq_nil_iff.2 h]
  rfl

/-- A text is what trimming leaves of it between blanks. -/
theorem exists_trim (text : List Char) :
    ∃ before after, (∀ c ∈ before, isBlank c) ∧ (∀ c ∈ after, isBlank c) ∧
      text = before ++ trim text ++ after := by
  obtain ⟨before, hb, ht⟩ := exists_trimLeft text
  obtain ⟨after, ha, hr⟩ := exists_trimLeft (trimLeft text).reverse
  refine ⟨before, after.reverse, hb, by simpa using ha, ?_⟩
  have hr : trimLeft text = trim text ++ after.reverse := by
    rw [← List.reverse_reverse (trimLeft text), hr, List.reverse_append]
    rfl
  rw [List.append_assoc, ← hr, ← ht]

theorem mem_of_mem_trim (h : c ∈ trim text) : c ∈ text := by
  obtain ⟨before, after, -, -, ht⟩ := exists_trim text
  rw [ht]
  exact List.mem_append_left _ (List.mem_append_right _ h)

theorem trimRight_append_of_ne {after : List Char} (h : trimRight after ≠ []) (text : List Char) :
    trimRight (text ++ after) = text ++ trimRight after := by
  unfold trimRight at h ⊢
  rw [List.reverse_append, List.dropWhile_append, if_neg (by simpa using h), List.reverse_append,
    List.reverse_reverse]

theorem trimRight_eq_nil_iff : trimRight text = [] ↔ ∀ c ∈ text, isBlank c := by
  simp [trimRight, List.dropWhile_eq_nil_iff]

theorem trimRight_cons (h : isBlank c = false) (text : List Char) :
    trimRight (c :: text) = c :: trimRight text := by
  by_cases hb : trimRight text = []
  · rw [hb]
    exact (trimRight_append_of_blank (trimRight_eq_nil_iff.1 hb) [c]).trans (trimRight_append h [])
  · exact trimRight_append_of_ne hb [c]

/-- What is left of a text without its leading blanks starts with another character. -/
theorem isBlank_of_trimLeft {rest : List Char} (h : trimLeft text = c :: rest) :
    isBlank c = false := by
  have hn := List.head?_dropWhile_not isBlank text
  change text.dropWhile isBlank = c :: rest at h
  rwa [h] at hn

/-- A text without leading blanks starts with another character. -/
theorem isBlank_of_head? (h : trimLeft text = text) : ∀ c ∈ text.head?, isBlank c = false := by
  intro c hc
  obtain ⟨rest, ht⟩ := List.head?_eq_some_iff.1 hc
  exact isBlank_of_trimLeft (h.trans ht)

theorem trimLeft_trim (text : List Char) : trimLeft (trim text) = trim text := by
  unfold trim
  cases ht : trimLeft text with
  | nil => rfl
  | cons c rest =>
    have hc : isBlank c = false := isBlank_of_trimLeft ht
    rw [trimRight_cons hc, trimLeft_cons hc]

theorem trimLeft_trimLeft (text : List Char) : trimLeft (trimLeft text) = trimLeft text :=
  List.dropWhile_idempotent isBlank text

theorem trimRight_trimRight (text : List Char) : trimRight (trimRight text) = trimRight text := by
  unfold trimRight
  rw [List.reverse_reverse, List.dropWhile_idempotent]

theorem exists_trimRight (text : List Char) :
    ∃ blanks, (∀ c ∈ blanks, isBlank c) ∧ text = trimRight text ++ blanks := by
  obtain ⟨blanks, hb, ht⟩ := exists_trimLeft text.reverse
  refine ⟨blanks.reverse, by simpa using hb, ?_⟩
  have hr : text = (trimLeft text.reverse).reverse ++ blanks.reverse := by
    rw [← List.reverse_append, ← ht, List.reverse_reverse]
  exact hr

theorem trim_trimRight (text : List Char) : trim (trimRight text) = trim text := by
  obtain ⟨blanks, hb, ht⟩ := exists_trimRight text
  conv_rhs => rw [ht, trim_append_of_blank hb]

theorem trim_trim (text : List Char) : trim (trim text) = trim text := by
  have ht : trim (trim text) = trimRight (trim text) := congrArg trimRight (trimLeft_trim text)
  rw [ht]
  exact trimRight_trimRight _

end FormulaScript.Text
