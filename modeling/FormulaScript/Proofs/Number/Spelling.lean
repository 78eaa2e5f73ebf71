import FormulaScript.Number.Literal
import Mathlib.Data.List.TakeWhile

/-!
# How literals are spelled

A literal that has a value is a radix mark with digits, or a mantissa with an optional exponent.
-/

namespace FormulaScript.Number

open Text

variable {text : List Char}

/-- Some decimal digits, at least one. -/
structure IsDigits (text : List Char) : Prop where
  ne_nil : text ≠ []
  digit : ∀ c ∈ text, isDecimalDigit c

/-- Decimal digits, at least one, with an optional point among or around them. -/
inductive IsMantissa : List Char → Prop
  | whole : IsDigits whole → IsMantissa whole
  | point : IsDigits (whole ++ fraction) → IsMantissa (whole ++ '.' :: fraction)

/-- Nothing, or an exponent mark and decimal digits after an optional sign. -/
inductive IsExponent : List Char → Prop
  | none : IsExponent []
  | mark : mark = 'e' ∨ mark = 'E' → sign = [] ∨ sign = ['+'] ∨ sign = ['-'] → IsDigits digits →
      IsExponent (mark :: sign ++ digits)

/-- The texts of decimal literals. -/
def IsDecimal (text : List Char) : Prop :=
  ∃ mantissa exponent, text = mantissa ++ exponent ∧ IsMantissa mantissa ∧ IsExponent exponent

/-- The text starts with a radix mark. -/
def HasRadix (text : List Char) : Prop :=
  ∃ mark digits radix, text = '0' :: mark :: digits ∧ radix? mark = some radix

theorem mapM_eq_some_iff {f : α → Option β} {xs : List α} {ys : List β} :
    xs.mapM f = some ys ↔ xs.map f = ys.map some := by
  induction xs generalizing ys with
  | nil => cases ys <;> simp
  | cons x xs ih =>
    cases ys <;> simp [Option.bind_eq_some_iff, ih]

theorem integer?_eq_some_iff {value? : Char → Option Nat} :
    integer? value? radix text = some n ↔
      text ≠ [] ∧ ∃ digits, text.map value? = digits.map some ∧ ofDigits radix digits = n := by
  simp [integer?, mapM_eq_some_iff]

/-- Every character of an integer is a digit. -/
theorem isSome_of_integer? {value? : Char → Option Nat} (h : integer? value? radix text = some n) :
    ∀ c ∈ text, (value? c).isSome := by
  obtain ⟨-, digits, hd, -⟩ := integer?_eq_some_iff.1 h
  intro c hc
  have hm : value? c ∈ digits.map some := hd ▸ List.mem_map_of_mem hc
  obtain ⟨d, -, hs⟩ := List.mem_map.1 hm
  rw [← hs]
  rfl

theorem isDigits_of_integer? (h : integer? decimalValue? 10 text = some n) : IsDigits text :=
  ⟨(integer?_eq_some_iff.1 h).1, isSome_of_integer? h⟩

theorem exists_of_exponent? (h : exponent? text = some power) :
    ∃ sign digits, text = sign ++ digits ∧ (sign = [] ∨ sign = ['+'] ∨ sign = ['-']) ∧
      IsDigits digits := by
  unfold exponent? at h
  split at h <;> obtain ⟨n, hn, -⟩ := Option.map_eq_some_iff.1 h
  · exact ⟨['+'], _, rfl, .inr (.inl rfl), isDigits_of_integer? hn⟩
  · obtain ⟨m, hm, -⟩ := Option.bind_eq_some_iff.1 hn
    exact ⟨['-'], _, rfl, .inr (.inr rfl), isDigits_of_integer? hm⟩
  · exact ⟨[], text, rfl, .inl rfl, isDigits_of_integer? hn⟩

theorem isExponent_of_exponentPart? (h : exponentPart? text = some power) : IsExponent text := by
  unfold exponentPart? at h
  split at h
  · exact .none
  · split at h
    · next hm =>
      obtain ⟨sign, digits, rfl, hs, hd⟩ := exists_of_exponent? h
      exact .mark (by simpa using hm) hs hd
    · cases h

/-- The digits of a decimal literal around its point, and what follows them. -/
theorem isMantissa_of_fractionPart (h : IsDigits (text.takeWhile isDecimalDigit ++
      (fractionPart (text.dropWhile isDecimalDigit)).1)) :
    ∃ mantissa, text = mantissa ++ (fractionPart (text.dropWhile isDecimalDigit)).2 ∧
      IsMantissa mantissa := by
  have hsplit : text.takeWhile isDecimalDigit ++ text.dropWhile isDecimalDigit = text :=
    List.takeWhile_append_dropWhile
  generalize text.takeWhile isDecimalDigit = whole at h hsplit
  generalize text.dropWhile isDecimalDigit = rest at h hsplit
  subst hsplit
  unfold fractionPart at h ⊢
  split at h
  · next tail =>
    refine ⟨whole ++ '.' :: tail.takeWhile isDecimalDigit, ?_, .point h⟩
    rw [List.append_assoc, List.cons_append, List.takeWhile_append_dropWhile]
  · exact ⟨whole, rfl, .whole (by simpa using h)⟩

theorem isDecimal_of_ofText? (h : Scientific.ofText? text = some s) : IsDecimal text := by
  simp only [Scientific.ofText?, Option.bind_eq_bind, Option.bind_eq_some_iff] at h
  obtain ⟨n, hn, power, hp, -⟩ := h
  obtain ⟨mantissa, ht, hm⟩ := isMantissa_of_fractionPart (isDigits_of_integer? hn)
  exact ⟨mantissa, _, ht, hm, isExponent_of_exponentPart? hp⟩

theorem decode?_of_not_hasRadix (h : ¬ HasRadix text) :
    decode? text = (Scientific.ofText? text).map Scientific.toFloat := by
  unfold decode?
  dsimp only
  split
  · next mark digits =>
    split
    · next radix hr => exact absurd ⟨mark, digits, radix, rfl, hr⟩ h
    · rfl
  · rfl

theorem radix?_of_isDecimalDigit {c : Char} (h : isDecimalDigit c) : radix? c = none := by
  have hmarks : ['b', 'B', 'o', 'O', 'x', 'X'].all (!isDecimalDigit ·) := by decide
  have hc : c ∉ ['b', 'B', 'o', 'O', 'x', 'X'] := fun hm => by
    simpa [h] using List.all_eq_true.1 hmarks c hm
  simp only [List.mem_cons, List.not_mem_nil, not_or] at hc
  simp [radix?, hc]

theorem not_hasRadix_of_digits (h : ∀ c ∈ text, isDecimalDigit c) : ¬ HasRadix text := by
  rintro ⟨mark, digits, radix, rfl, hr⟩
  rw [radix?_of_isDecimalDigit (h mark (List.mem_cons_of_mem _ List.mem_cons_self))] at hr
  cases hr

/-- A literal with a value has a radix mark and digits of its radix, or is decimal. -/
theorem literal_cases (h : decode? text = some value) :
    (∃ mark digits radix, text = '0' :: mark :: digits ∧ radix? mark = some radix ∧
        ∀ c ∈ digits, (digitValue? radix c).isSome) ∨
      IsDecimal text ∧ ¬ HasRadix text := by
  by_cases hx : HasRadix text
  · obtain ⟨mark, digits, radix, rfl, hr⟩ := hx
    simp only [decode?, hr] at h
    obtain ⟨n, hn, -⟩ := Option.map_eq_some_iff.1 h
    exact .inl ⟨mark, digits, radix, rfl, hr, isSome_of_integer? hn⟩
  · rw [decode?_of_not_hasRadix hx] at h
    obtain ⟨s, hs, -⟩ := Option.map_eq_some_iff.1 h
    exact .inr ⟨isDecimal_of_ofText? hs, hx⟩

end FormulaScript.Number
