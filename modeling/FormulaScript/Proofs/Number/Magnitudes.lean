import FormulaScript.Proofs.Number.Nearest

/-!
# Magnitudes of doubles

The magnitudes that words stand for are the multiples of powers of two with a factor of 53 bits. A
word stands for more than the word before it, so a magnitude has one word, and rounding a number to
a magnitude keeps it on its side of every other magnitude.
-/

namespace FormulaScript.Number

variable {word word' units num den places significand : Nat}

/-- A word is a significand and its places. -/
theorem exists_significand (word : Nat) : ∃ places significand,
    word = places * 2 ^ 52 + significand ∧ significand < 2 ^ 53 ∧
      (places = 0 ∨ 2 ^ 52 ≤ significand) :=
  ⟨word / 2 ^ 52 - 1, word - (word / 2 ^ 52 - 1) * 2 ^ 52, by omega, by omega, by omega⟩

theorem unitsOfBits_strictMono : StrictMono unitsOfBits := by
  refine strictMono_nat_of_lt_succ fun word => ?_
  obtain ⟨places, significand, rfl, hs, hp⟩ := exists_significand word
  rw [unitsOfBits_eq hs.le hp, Nat.add_assoc, unitsOfBits_eq hs (by omega)]
  exact Nat.mul_lt_mul_of_pos_right (Nat.lt_succ_self _) (Nat.two_pow_pos _)

theorem unitsOfBits_zero : unitsOfBits 0 = 0 := rfl

/-- No finite magnitude is above the largest one. -/
theorem unitsOfBits_le_of_lt (h : word < infinityBits) :
    unitsOfBits word ≤ (2 ^ 53 - 1) * 2 ^ 2045 := by
  have hi : infinityBits = 2045 * 2 ^ 52 + (2 ^ 53 - 1) + 1 := rfl
  have hmax : unitsOfBits (2045 * 2 ^ 52 + (2 ^ 53 - 1)) = (2 ^ 53 - 1) * 2 ^ 2045 :=
    unitsOfBits_eq (by decide) (.inr (by decide))
  exact hmax ▸ unitsOfBits_strictMono.monotone (Nat.le_of_lt_succ (h.trans_eq hi))

/-- Every number of at most 53 bits and some binary places is a magnitude. -/
theorem exists_unitsOfBits (hs : significand ≤ 2 ^ 53) (places : Nat) :
    ∃ word, unitsOfBits word = significand * 2 ^ places := by
  induction places generalizing significand with
  | zero => exact ⟨_, unitsOfBits_eq hs (.inl rfl)⟩
  | succ places ih =>
    rcases Nat.lt_or_ge significand (2 ^ 52) with hlt | hge
    · obtain ⟨word, hw⟩ := ih (show significand * 2 ≤ 2 ^ 53 by omega)
      exact ⟨word, by rw [hw, Nat.pow_succ', Nat.mul_assoc]⟩
    · exact ⟨_, unitsOfBits_eq hs (.inr hge)⟩

/-! ## Rounded numbers -/

/-- The magnitude nearest to a number of units. -/
def rounded (units : Nat) : Nat := unitsOfBits (wordOf units 1)

theorem rounded_nearest (units word : Nat) :
    Nat.dist units (rounded units) ≤ Nat.dist units (unitsOfBits word) := by
  simpa [rounded] using (wordOf_nearest Nat.one_pos units word).1

/-- A magnitude is rounded to itself. -/
theorem wordOf_unitsOfBits (word : Nat) : wordOf (unitsOfBits word) 1 = word := by
  have h := rounded_nearest (unitsOfBits word) word
  rw [Nat.dist_self, Nat.le_zero] at h
  exact unitsOfBits_strictMono.injective (Nat.eq_of_dist_eq_zero h).symm

/-- A magnitude that is not above a number is not above the rounded number. -/
theorem unitsOfBits_le_rounded (h : unitsOfBits word ≤ units) :
    unitsOfBits word ≤ rounded units := by
  have hn := rounded_nearest units word
  rw [Nat.dist_eq_sub_of_le_right h] at hn
  unfold Nat.dist at hn
  omega

theorem rounded_le_unitsOfBits (h : units ≤ unitsOfBits word) :
    rounded units ≤ unitsOfBits word := by
  have hn := rounded_nearest units word
  rw [Nat.dist_eq_sub_of_le h] at hn
  unfold Nat.dist at hn
  omega

/-- The magnitude that a quotient in the range of the normal ones is rounded to is off by a small
part of it. -/
theorem wordOf_error (hd : 0 < den) (h : den * 2 ^ 51 ≤ units) :
    2 ^ 52 * Nat.dist units (unitsOfBits (wordOf units den) * den) ≤ units := by
  have hpos : 0 < den * 2 ^ placesOf units den := Nat.mul_pos hd (Nat.two_pow_pos _)
  have hle := (divNearest_spec hpos units).1
  rw [← significandOf] at hle
  have hmul : significandOf units den * 2 ^ placesOf units den * den =
      significandOf units den * (den * 2 ^ placesOf units den) := by
    rw [Nat.mul_assoc, Nat.mul_comm den]
  rw [unitsOfBits_wordOf hd, hmul]
  rcases (placesOf_spec hd units).2 with hzero | hge
  · rw [hzero, Nat.pow_zero, Nat.mul_one] at hle ⊢
    omega
  · rw [← mul_two_pow_add] at hge
    omega

/-! ## Quotients of multiples -/

theorem divNearest_mul_right (hd : 0 < d) (num den : Nat) :
    divNearest (num * d) (den * d) = divNearest num den := by
  unfold divNearest
  dsimp only
  rw [Nat.mul_div_mul_right _ _ hd, Nat.mul_mod_mul_right, ← Nat.mul_assoc]
  simp only [Nat.mul_lt_mul_right hd]

/-- The word of a multiple of the divisor is that of the factor. -/
theorem wordOf_mul (hd : 0 < den) (units : Nat) : wordOf (units * den) den = wordOf units 1 := by
  have hp : placesOf (units * den) den = placesOf units 1 := by
    rw [placesOf, placesOf, Nat.mul_div_cancel _ hd, Nat.div_one]
  rw [wordOf, wordOf, significandOf, significandOf, hp, Nat.one_mul, Nat.mul_comm den,
    divNearest_mul_right hd]

end FormulaScript.Number
