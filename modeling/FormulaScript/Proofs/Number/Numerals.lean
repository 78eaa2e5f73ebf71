import FormulaScript.Proofs.Number.Nearest
import FormulaScript.Proofs.Number.Spelling

/-!
# Numerals

A natural number can be written as a literal in four radices. All its numerals are literals of one
double, the nearest to the number.
-/

namespace FormulaScript.Number

open Text

/-- The radix marks. -/
def radixMarks : List (Char × Nat) :=
  [('b', 2), ('B', 2), ('o', 8), ('O', 8), ('x', 16), ('X', 16)]

/-- The literals of a natural number: its decimal digits, or its digits in another radix after the
mark of this, those beyond nine in either case. Zeros may come before the digits. -/
inductive IsNumeral (n : Nat) : List Char → Prop
  | decimal (zeros : Nat) : IsNumeral n (List.replicate zeros '0' ++ Nat.toDigits 10 n)
  | radix (zeros : Nat) : (mark, radix) ∈ radixMarks →
      digits.map Char.toLower = Nat.toDigits radix n →
      IsNumeral n ('0' :: mark :: (List.replicate zeros '0' ++ digits))

/-! ## Digits -/

variable {radix n d : Nat} {digits : List Nat} {text : List Char}

theorem ofDigits_concat (radix : Nat) (digits : List Nat) (d : Nat) :
    ofDigits radix (digits ++ [d]) = ofDigits radix digits * radix + d := by
  simp [ofDigits]

theorem ofDigits_zeros (radix zeros : Nat) (digits : List Nat) :
    ofDigits radix (List.replicate zeros 0 ++ digits) = ofDigits radix digits := by
  induction zeros with
  | zero => rfl
  | succ zeros ih =>
    rw [← ih]
    simp [ofDigits, List.replicate_succ]

/-- The digits of a number denote it. The induction takes its last digit off. -/
theorem exists_toDigits (hr : 1 < radix) (n : Nat) :
    ∃ digits, Nat.toDigits radix n = digits.map Nat.digitChar ∧ digits ≠ [] ∧
      (∀ d ∈ digits, d < radix) ∧ ofDigits radix digits = n := by
  induction n using Nat.strongRecOn with
  | ind n ih =>
    rcases Nat.lt_or_ge n radix with hlt | hge
    · refine ⟨[n], Nat.toDigits_of_lt_base hlt, List.cons_ne_nil _ _, by simpa using hlt, ?_⟩
      simp [ofDigits]
    · obtain ⟨digits, ht, hne, hd, hn⟩ := ih (n / radix) (Nat.div_lt_self (by omega) hr)
      refine ⟨digits ++ [n % radix], ?_, by simp, ?_, ?_⟩
      · rw [Nat.toDigits_of_base_le hr hge, ht, List.map_append]
        rfl
      · exact List.forall_mem_append.2
          ⟨hd, List.forall_mem_singleton.2 (Nat.mod_lt n (by omega))⟩
      · rw [ofDigits_concat, hn]
        exact Nat.div_add_mod' n radix

theorem decimalValue?_digitChar (h : d < 10) : decimalValue? d.digitChar = some d := by
  have hall : ∀ d < 10, decimalValue? d.digitChar = some d := by decide
  exact hall d h

/-- A digit in either case has its value. -/
theorem digitValue?_of_toLower {c : Char} (hd : d < radix) (hr : radix ≤ 16)
    (h : c.toLower = d.digitChar) : digitValue? radix c = some d := by
  have hchars : ∀ d < 16, d.digitChar.toNat < 128 := by decide
  have hall : ∀ n < 128, ∀ d < 16, (Char.ofNat n).toLower = d.digitChar →
      digitValue? 16 (Char.ofNat n) = some d := by decide +kernel
  have hlt : c.toNat < 128 := by
    unfold Char.toLower at h
    split at h
    · next hc => exact Nat.lt_of_le_of_lt hc.2 (by decide)
    · rw [h]
      exact hchars d (by omega)
  have hsixteen := hall c.toNat hlt d (by omega)
  rw [Char.ofNat_toNat] at hsixteen
  obtain ⟨hvalue, -⟩ := Option.filter_eq_some_iff.1 (hsixteen h)
  exact Option.filter_eq_some_iff.2 ⟨hvalue, decide_eq_true hd⟩

theorem map_digitValue? (hr : radix ≤ 16) (hd : ∀ d ∈ digits, d < radix)
    (h : text.map Char.toLower = digits.map Nat.digitChar) :
    text.map (digitValue? radix) = digits.map some := by
  induction digits generalizing text with
  | nil =>
    rw [List.map_eq_nil_iff.1 h]
    rfl
  | cons d digits ih =>
    obtain ⟨c, text, rfl, hc, h⟩ := List.map_eq_cons_iff.1 h
    obtain ⟨hlt, hd⟩ := List.forall_mem_cons.1 hd
    rw [List.map_cons, List.map_cons, digitValue?_of_toLower hlt hr hc, ih hd h]

theorem map_decimalValue? (hd : ∀ d ∈ digits, d < 10) :
    (digits.map Nat.digitChar).map decimalValue? = digits.map some := by
  rw [List.map_map]
  exact List.map_congr_left fun d hm => decimalValue?_digitChar (hd d hm)

/-! ## Values -/

/-- Zeros before the digits of an integer do not count. -/
theorem integer?_of_zeros {value? : Char → Option Nat} (hz : value? '0' = some 0) (zeros : Nat)
    (h : text.map value? = digits.map some) (hne : digits ≠ []) :
    integer? value? radix (List.replicate zeros '0' ++ text) = some (ofDigits radix digits) := by
  refine integer?_eq_some_iff.2 ⟨?_, List.replicate zeros 0 ++ digits, ?_, ofDigits_zeros ..⟩
  · rintro hnil
    rw [(List.append_eq_nil_iff.1 hnil).2] at h
    exact hne (List.map_eq_nil_iff.1 h.symm)
  · rw [List.map_append, List.map_append, List.map_replicate, List.map_replicate, hz, h]

theorem decode?_of_radix {digits : List Char} (hm : (mark, radix) ∈ radixMarks) (zeros : Nat)
    (h : digits.map Char.toLower = Nat.toDigits radix n) :
    decode? ('0' :: mark :: (List.replicate zeros '0' ++ digits)) = some (nearest n 1) := by
  have hall : ∀ entry ∈ radixMarks, radix? entry.1 = some entry.2 ∧ 1 < entry.2 ∧ entry.2 ≤ 16 := by
    decide
  obtain ⟨hmark, hone, hle⟩ := hall _ hm
  obtain ⟨values, ht, hne, hd, hn⟩ := exists_toDigits hone n
  have hzero : digitValue? radix '0' = some 0 :=
    digitValue?_of_toLower (Nat.zero_lt_of_lt hone) hle rfl
  have hvalue : integer? (digitValue? radix) radix (List.replicate zeros '0' ++ digits) = some n :=
    hn ▸ integer?_of_zeros hzero zeros (map_digitValue? hle hd (h.trans ht)) hne
  simp only [decode?, hmark, hvalue, Option.map_some]

/-- A text of decimal digits is a whole number. -/
theorem ofText?_of_digits (hd : ∀ c ∈ text, isDecimalDigit c)
    (hn : integer? decimalValue? 10 text = some n) : Scientific.ofText? text = some ⟨n, 0⟩ := by
  have htake : text.takeWhile isDecimalDigit = text := List.takeWhile_eq_self_iff.2 hd
  have hdrop : text.dropWhile isDecimalDigit = [] := List.dropWhile_eq_nil_iff.2 hd
  simp [Scientific.ofText?, htake, hdrop, fractionPart, hn, exponentPart?]

theorem toFloat_whole (n : Nat) : Scientific.toFloat ⟨n, 0⟩ = nearest n 1 := by
  have hzero : (0.0 : Float) = nearest 0 1 := by decide +kernel
  unfold Scientific.toFloat
  split
  · next h =>
    obtain rfl : n = 0 := h
    exact hzero
  · rw [if_pos (Int.le_refl 0), if_neg (show ¬ (400 : Int) < 0 by decide)]
    exact congrArg (nearest · 1) (Nat.mul_one n)

theorem decode?_of_decimal (zeros n : Nat) :
    decode? (List.replicate zeros '0' ++ Nat.toDigits 10 n) = some (nearest n 1) := by
  obtain ⟨values, ht, hne, hd, hn⟩ := exists_toDigits (show 1 < 10 by decide) n
  have hzero : decimalValue? '0' = some 0 := decimalValue?_digitChar (show 0 < 10 by decide)
  have hvalue : integer? decimalValue? 10 (List.replicate zeros '0' ++ Nat.toDigits 10 n) =
      some n := by
    rw [ht, integer?_of_zeros hzero zeros (map_decimalValue? hd) hne, hn]
  have hdigits := isSome_of_integer? hvalue
  rw [decode?_of_not_hasRadix (not_hasRadix_of_digits hdigits), ofText?_of_digits hdigits hvalue,
    Option.map_some, toFloat_whole]

/-- All numerals of a number are literals of one double. It is infinity if the number is not below
the middle between the largest double and the power of two after it, and else the nearest to it. -/
theorem decode?_numerals (n : Nat) :
    ∃ x : Float, (∀ text, IsNumeral n text → decode? text = some x) ∧ isNegative x = false ∧
      (x = infinity ↔ 2 ^ 1024 - 2 ^ 970 ≤ n) ∧ (n < 2 ^ 1024 - 2 ^ 970 → IsNearest x n) := by
  refine ⟨nearest n 1, ?_, isNegative_ofBits (Nat.min_le_right _ _), ?_, fun h => ?_⟩
  · rintro _ (⟨zeros⟩ | ⟨zeros, hm, hd⟩)
    · exact decode?_of_decimal zeros n
    · exact decode?_of_radix hm zeros hd
  · rw [nearest_eq_infinity_iff Nat.one_pos, Nat.mul_one]
  · have hnearest := isNearest_nearest Nat.one_pos (h.trans_eq (Nat.mul_one _).symm)
    rwa [Nat.cast_one, div_one] at hnearest

end FormulaScript.Number
