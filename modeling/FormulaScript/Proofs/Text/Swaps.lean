import FormulaScript.Proofs.Text.Blank

/-!
# Lists that differ in a part

`Swaps x y n s t` says that `t` is `s` with `n` parts `x` of it replaced by `y`. The count adds up
over the pieces that a list is cut into, so nothing is lost or doubled on the way from a text to
what is made of it.
-/

namespace FormulaScript

/-- In the place of `n` parts `x` of the first list the second has `y`, and is like it otherwise. -/
inductive Swaps (x y : List α) : Nat → List α → List α → Prop
  | nil : Swaps x y 0 [] []
  | cons (a : α) : Swaps x y n s t → Swaps x y n (a :: s) (a :: t)
  | swap : Swaps x y n s t → Swaps x y (n + 1) (x ++ s) (y ++ t)

/-- The items of two lists are related in order, with counts that sum up to `n`. -/
inductive Tally (R : Nat → α → β → Prop) : Nat → List α → List β → Prop
  | nil : Tally R 0 [] []
  | cons : R m a b → Tally R n as bs → Tally R (m + n) (a :: as) (b :: bs)

namespace Swaps

variable {x y s t s' t' : List α} {m n : Nat} {q : α}

theorem refl (s : List α) : Swaps x y 0 s s := by
  induction s with
  | nil => exact .nil
  | cons a s ih => exact .cons a ih

theorem symm (h : Swaps x y n s t) : Swaps y x n t s := by
  induction h with
  | nil => exact .nil
  | cons a _ ih => exact .cons a ih
  | swap _ ih => exact .swap ih

theorem append (h : Swaps x y m s t) (h' : Swaps x y n s' t') :
    Swaps x y (m + n) (s ++ s') (t ++ t') := by
  induction h with
  | nil => rwa [Nat.zero_add]
  | cons a _ ih => exact .cons a ih
  | swap _ ih =>
    rw [List.append_assoc, List.append_assoc, Nat.add_right_comm]
    exact .swap ih

theorem part (x y : List α) : Swaps x y 1 x y := by
  simpa using swap (x := x) (y := y) .nil

theorem reverse (h : Swaps x y n s t) : Swaps x.reverse y.reverse n s.reverse t.reverse := by
  induction h with
  | nil => exact .nil
  | cons a _ ih =>
    rw [List.reverse_cons, List.reverse_cons]
    exact ih.append (.refl [a])
  | swap _ ih =>
    rw [List.reverse_append, List.reverse_append]
    exact ih.append (.part _ _)

theorem eq_of_zero (h : Swaps x y 0 s t) : s = t := by
  generalize hn : 0 = n at h
  induction h with
  | nil => rfl
  | cons a _ ih => exact congrArg _ (ih hn)
  | swap => cases hn

/-- With a count of one the lists differ in just one part. -/
theorem exists_of_one (h : Swaps x y 1 s t) :
    ∃ before after, s = before ++ x ++ after ∧ t = before ++ y ++ after := by
  generalize hn : 1 = n at h
  induction h with
  | nil => cases hn
  | cons a _ ih =>
    obtain ⟨before, after, rfl, rfl⟩ := ih hn
    exact ⟨a :: before, after, rfl, rfl⟩
  | swap h =>
    cases hn
    exact ⟨[], _, rfl, h.eq_of_zero ▸ rfl⟩

theorem eq_zero_of_not_infix (h : Swaps x y n s t) (hx : ¬ x <:+: s) : n = 0 := by
  induction h with
  | nil => rfl
  | cons a _ ih => exact ih fun hi => hx (List.infix_cons hi)
  | swap => exact absurd (List.prefix_append _ _).isInfix hx

/-! ## Parts that start alike -/

/-- Where the first item of the parts is missing, nothing differs. -/
theorem eq_zero (h : Swaps (q :: x) (q :: y) n s t) (hs : q ∉ s) : n = 0 := by
  induction h with
  | nil => rfl
  | cons a _ ih => exact ih (List.not_mem_of_not_mem_cons hs)
  | swap => exact absurd List.mem_cons_self hs

theorem eq (h : Swaps (q :: x) (q :: y) n s t) (hs : q ∉ s) : s = t := by
  cases h.eq_zero hs
  exact h.eq_of_zero

theorem eq_iff (h : Swaps (q :: x) (q :: y) n s t) (hk : q ∉ k) : s = k ↔ t = k := by
  constructor
  · rintro rfl
    exact (h.eq hk).symm
  · rintro rfl
    exact (h.symm.eq hk).symm

theorem isEmpty_eq (h : Swaps (q :: x) (q :: y) n s t) : s.isEmpty = t.isEmpty := by
  rw [Bool.eq_iff_iff, List.isEmpty_iff, List.isEmpty_iff]
  exact h.eq_iff (List.not_mem_nil)

theorem head?_eq (h : Swaps (q :: x) (q :: y) n s t) : s.head? = t.head? := by
  cases h <;> rfl

theorem tail (h : Swaps (q :: x) (q :: y) n s t) (hs : s.head? ≠ some q) :
    Swaps (q :: x) (q :: y) n s.tail t.tail := by
  cases h with
  | nil => exact .nil
  | cons _ h => exact h
  | swap => exact absurd rfl hs

/-- Only both or neither of the lists begin with a word, and go on alike. -/
theorem prefix_cases {word : List α} (hw : q ∉ word) (h : Swaps (q :: x) (q :: y) n s t) :
    (∃ s' t', s = word ++ s' ∧ t = word ++ t' ∧ Swaps (q :: x) (q :: y) n s' t') ∨
      (¬ word <+: s ∧ ¬ word <+: t) := by
  induction word generalizing s t with
  | nil => exact .inl ⟨s, t, rfl, rfl, h⟩
  | cons c word ih =>
    rw [List.mem_cons, not_or] at hw
    obtain ⟨hc, hw⟩ := hw
    cases h with
    | nil => exact .inr ⟨by simp, by simp⟩
    | cons a h =>
      by_cases ha : c = a
      · subst ha
        rcases ih hw h with ⟨s', t', rfl, rfl, h'⟩ | ⟨hs, ht⟩
        · exact .inl ⟨s', t', rfl, rfl, h'⟩
        · exact .inr ⟨fun hp => hs (List.cons_prefix_cons.1 hp).2,
            fun hp => ht (List.cons_prefix_cons.1 hp).2⟩
      · exact .inr ⟨fun hp => ha (List.cons_prefix_cons.1 hp).1,
          fun hp => ha (List.cons_prefix_cons.1 hp).1⟩
    | swap =>
      exact .inr ⟨fun hp => hc (List.cons_prefix_cons.1 hp).1.symm,
        fun hp => hc (List.cons_prefix_cons.1 hp).1.symm⟩

theorem dropWhile {p : α → Bool} (hq : p q = false) (h : Swaps (q :: x) (q :: y) n s t) :
    Swaps (q :: x) (q :: y) n (s.dropWhile p) (t.dropWhile p) := by
  induction h with
  | nil => exact .nil
  | @cons _ s t a h ih =>
    by_cases ha : p a
    · rwa [List.dropWhile_cons_of_pos ha, List.dropWhile_cons_of_pos ha]
    · rw [List.dropWhile_cons_of_neg ha, List.dropWhile_cons_of_neg ha]
      exact .cons a h
  | swap h =>
    rw [List.cons_append, List.cons_append, List.dropWhile_cons_of_neg (by simp [hq]),
      List.dropWhile_cons_of_neg (by simp [hq])]
    exact .swap h

end Swaps

/-! ## Counts over lists -/

namespace Tally

variable {R : Nat → α → β → Prop} {m n : Nat}

theorem append {as as' : List α} {bs bs' : List β} (h : Tally R m as bs) (h' : Tally R n as' bs') :
    Tally R (m + n) (as ++ as') (bs ++ bs') := by
  induction h with
  | nil => rwa [Nat.zero_add]
  | cons hab _ ih =>
    rw [Nat.add_assoc]
    exact .cons hab ih

theorem isEmpty_eq {as : List α} {bs : List β} (h : Tally R n as bs) :
    as.isEmpty = bs.isEmpty := by
  cases h <;> rfl

theorem length_eq {as : List α} {bs : List β} (h : Tally R n as bs) : as.length = bs.length := by
  induction h with
  | nil => rfl
  | cons _ _ ih => exact congrArg (· + 1) ih

theorem eq_zero {as : List α} {bs : List β} (h : Tally R n as bs) (ha : as.isEmpty) : n = 0 := by
  cases h with
  | nil => rfl
  | cons => cases ha

theorem refl {R : Nat → α → α → Prop} (h : ∀ a, R 0 a a) (as : List α) : Tally R 0 as as := by
  induction as with
  | nil => exact .nil
  | cons a as ih => exact .cons (h a) ih

theorem singleton (h : R n a b) : Tally R n [a] [b] := by
  simpa using cons h .nil

end Tally

/-! ## Texts that differ in literals -/

/-- The text of a string literal. It stands on one line. -/
structure Literal where
  text : List Char
  quote : '"' ∉ text
  newline : '\n' ∉ text
  nul : '\x00' ∉ text

/-- The literal as it is written. -/
abbrev Literal.quoted (literal : Literal) : List Char := '"' :: (literal.text ++ ['"'])

/-- The second text has `n` literals `y` in places where the first has `x`. -/
abbrev SwapsText (x y : Literal) : Nat → List Char → List Char → Prop := Swaps x.quoted y.quoted

theorem Literal.reverse_quoted (x : Literal) :
    x.quoted.reverse = '"' :: (x.text.reverse ++ ['"']) := by
  simp

/-- In a text with two quotes only one literal can stand. -/
theorem Literal.eq_takeWhile_of_count {x : Literal} {front back text : List Char}
    (h : front ++ x.quoted ++ back = text) (hc : text.count '"' = 2) :
    front = text.takeWhile (· ≠ '"') := by
  have hn : '"' ∉ front := by
    rw [← h, List.append_assoc, List.count_append, List.count_append, List.count_cons_self,
      List.count_append, List.count_singleton_self] at hc
    exact List.count_eq_zero.1 (by omega)
  have hp : ∀ c ∈ front, decide (c ≠ '"') := fun c hc' =>
    decide_eq_true (ne_of_mem_of_not_mem hc' hn)
  rw [← h, List.append_assoc, List.takeWhile_append_of_pos hp, List.cons_append,
    List.takeWhile_cons_of_neg (by simp), List.append_nil]

/-- Only in one place can a literal stand in a text that is shorter than it otherwise. -/
theorem Literal.eq_of_append {z : Literal} {front back front' back' : List Char}
    (h : front ++ z.quoted ++ back = front' ++ z.quoted ++ back')
    (hl : front.length + back.length < z.text.length) : front = front' ∧ back = back' := by
  -- a second one could start only at the closing quote of the first
  have within {part b b' : List Char} (h : z.quoted ++ b = part ++ (z.quoted ++ b'))
      (hl : part.length ≤ z.text.length) : part = [] := by
    cases part with
    | nil => rfl
    | cons c part =>
      rw [List.cons_append, List.cons_append, List.append_assoc, List.cons.injEq] at h
      have hq := congrArg (·[part.length]?) h.2
      rw [List.length_cons] at hl
      rw [List.getElem?_append_left hl, List.getElem?_append_right (Nat.le_refl _),
        Nat.sub_self] at hq
      exact absurd (List.mem_of_getElem? hq) z.quote
  have hlength := congrArg List.length h
  simp only [List.length_append] at hlength
  rw [List.append_assoc, List.append_assoc] at h
  rcases List.append_eq_append_iff.1 h with ⟨part, rfl, hp⟩ | ⟨part, rfl, hp⟩
  · rw [List.length_append] at hlength
    cases within hp (by omega)
    exact ⟨(List.append_nil _).symm, List.append_cancel_left hp⟩
  · rw [List.length_append] at hl
    cases within hp (by omega)
    exact ⟨List.append_nil _, (List.append_cancel_left hp).symm⟩

namespace SwapsText

open Text

variable {x y z : Literal} {m n : Nat} {s t u : List Char}

theorem trimLeft (h : SwapsText x y n s t) : SwapsText x y n (trimLeft s) (trimLeft t) :=
  h.dropWhile (by decide)

theorem reverse (h : SwapsText x y n s t) :
    Swaps ('"' :: (x.text.reverse ++ ['"'])) ('"' :: (y.text.reverse ++ ['"'])) n
      s.reverse t.reverse := by
  rw [← x.reverse_quoted, ← y.reverse_quoted]
  exact Swaps.reverse h

theorem of_reverse (h : Swaps ('"' :: (x.text.reverse ++ ['"'])) ('"' :: (y.text.reverse ++ ['"']))
    n s t) : SwapsText x y n s.reverse t.reverse := by
  have hr := h.reverse
  rwa [← x.reverse_quoted, ← y.reverse_quoted, List.reverse_reverse, List.reverse_reverse] at hr

theorem trimRight (h : SwapsText x y n s t) : SwapsText x y n (trimRight s) (trimRight t) :=
  of_reverse ((reverse h).dropWhile (by decide))

theorem trim (h : SwapsText x y n s t) : SwapsText x y n (trim s) (trim t) :=
  (trimLeft h).trimRight

theorem getLast?_eq (h : SwapsText x y n s t) : s.getLast? = t.getLast? := by
  rw [List.getLast?_eq_head?_reverse, List.getLast?_eq_head?_reverse]
  exact (reverse h).head?_eq

theorem dropLast (h : SwapsText x y n s t) (hs : s.getLast? ≠ some '"') :
    SwapsText x y n s.dropLast t.dropLast := by
  rw [List.getLast?_eq_head?_reverse] at hs
  have hr := of_reverse ((reverse h).tail hs)
  rwa [List.tail_reverse, List.tail_reverse, List.reverse_reverse, List.reverse_reverse] at hr

/-- What stands after all quotes is the same in both texts. -/
theorem exists_append {before after : List Char} (h : SwapsText x y n (before ++ after) t)
    (ha : '"' ∉ after) : ∃ before', t = before' ++ after ∧ SwapsText x y n before before' := by
  have hr := reverse h
  rw [List.reverse_append] at hr
  rcases hr.prefix_cases (mt List.mem_reverse.1 ha) with ⟨s', t', hs, ht, h'⟩ | ⟨hs, -⟩
  · cases List.append_cancel_left hs
    refine ⟨t'.reverse, ?_, ?_⟩
    · rw [← List.reverse_inj, ht, List.reverse_append, List.reverse_reverse]
    · rw [← List.reverse_reverse before]
      exact of_reverse h'
  · exact absurd (List.prefix_append _ _) hs

/-- Two replacements in a row are one, if the literal between them is too long to be in the text
already. -/
theorem trans_of_length (h : SwapsText x z m s u) (h' : SwapsText z y n u t) (hm : m ≤ 1)
    (hn : n ≤ 1) (hl : s.length < z.text.length) : n ≤ m ∧ (n = m → SwapsText x y m s t) := by
  obtain rfl | rfl := Nat.le_one_iff_eq_zero_or_eq_one.1 hm
  · cases h.eq_of_zero
    have hz : ¬ z.quoted <:+: s := fun hz => by
      have := hz.length_le
      simp only [List.length_cons, List.length_append] at this
      omega
    cases h'.eq_zero_of_not_infix hz
    exact ⟨Nat.le_refl 0, fun _ => h'.eq_of_zero ▸ .refl s⟩
  · refine ⟨hn, ?_⟩
    rintro rfl
    obtain ⟨front, back, rfl, rfl⟩ := h.exists_of_one
    obtain ⟨front', back', hu, rfl⟩ := h'.exists_of_one
    simp only [List.length_append] at hl
    obtain ⟨rfl, rfl⟩ := Literal.eq_of_append hu (by omega)
    exact ((Swaps.refl front).append (.part _ _)).append (.refl back)

end SwapsText

end FormulaScript
