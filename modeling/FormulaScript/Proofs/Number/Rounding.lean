import FormulaScript.Number.Rounding
import FormulaScript.Proofs.Number.Sums

/-!
# Rounding to an integer

Half a unit is added to a number and the sum is truncated, but the sum is a double too. From
`2 ^ 52` on the doubles are integers, so the exact sum lies between two of them and is rounded to
the even one; and the largest double below one half adds up to one. Everywhere else the sum is on
the same side of the next integer as the exact sum.
-/

namespace FormulaScript.Number

variable {word whole units places significand : Nat}

/-- Half of one in units of `2 ^ -1074`. -/
def unitsPerHalf : Nat := 2 ^ 1073

theorem unitsPerHalf_eq {m n : Nat} (h : 1073 = m + n) : unitsPerHalf = 2 ^ m * 2 ^ n := by
  unfold unitsPerHalf
  exact two_pow_split h

theorem unitsPerHalf_eq_mul : unitsPerHalf = 2 ^ 53 * 2 ^ 1020 := by
  rw [unitsPerHalf_eq (show 1073 = 53 + 1020 from rfl)]

theorem unitsPerHalf_pos : 0 < unitsPerHalf := by
  rw [unitsPerHalf_eq (Nat.zero_add _).symm]
  positivity

theorem unitsPerOne_eq_half : unitsPerOne = 2 * unitsPerHalf := by
  rw [unitsPerOne_eq, unitsPerHalf, two_pow_split (Nat.add_comm 1073 1), Nat.pow_one]

/-- From `2 ^ 52` on the doubles are integers. -/
theorem whole_or_lt (word : Nat) : (∃ k, unitsOfBits word = k * unitsPerOne) ∨
    unitsOfBits word < 2 ^ 52 * unitsPerOne := by
  rw [unitsPerOne_eq]
  exact (unitsOfBits_grid word 1074).imp_right And.right

/-! ## The sum with one half -/

/-- A number not below an integer of 53 bits is not rounded to below it. -/
theorem le_rounded_div (hw : whole ≤ 2 ^ 53) (h : whole * unitsPerOne ≤ units) :
    whole ≤ rounded units / unitsPerOne := by
  obtain ⟨word, hword⟩ := exists_unitsOfBits hw 1074
  rw [← unitsPerOne_eq] at hword
  rw [Nat.le_div_iff_mul_le unitsPerOne_pos]
  exact hword ▸ unitsOfBits_le_rounded (hword.le.trans h)

/-- A number below an integer by a step of the magnitudes there is rounded to below it. -/
theorem rounded_div_lt {count : Nat} (hc : count ≤ 2 ^ 53)
    (heq : whole * unitsPerOne = count * 2 ^ places)
    (h : units + 2 ^ places ≤ whole * unitsPerOne) : rounded units / unitsPerOne < whole := by
  obtain ⟨word, hword⟩ := exists_unitsOfBits (show count - 1 ≤ 2 ^ 53 by omega) places
  have hpos := Nat.two_pow_pos places
  rw [Nat.sub_mul, Nat.one_mul, ← heq] at hword
  have hle : rounded units ≤ unitsOfBits word := rounded_le_unitsOfBits (by omega)
  rw [Nat.div_lt_iff_lt_mul unitsPerOne_pos]
  omega

/-- A number in the middle between two magnitudes of 53 bits is rounded to the even one. -/
theorem rounded_middle (hge : 2 ^ 52 ≤ significand) (hlt : significand < 2 ^ 53) (places : Nat) :
    rounded ((2 * significand + 1) * 2 ^ places) =
      (significand + significand % 2) * 2 ^ (places + 1) := by
  have hlog : (2 * significand + 1).log2 = 53 := (Nat.log2_eq_iff (by omega)).2 (by omega)
  have hplaces : placesOf ((2 * significand + 1) * 2 ^ places) 1 = places + 1 := by
    rw [placesOf, Nat.div_one, log2_mul_two_pow (by omega), hlog]
    omega
  have hmiddle : divNearest (2 * significand + 1) 2 = significand + significand % 2 := by
    have hdiv : (2 * significand + 1) / 2 = significand := by omega
    have hmod : (2 * significand + 1) % 2 = 1 := by omega
    rw [divNearest, hdiv, hmod]
    rfl
  rw [rounded, unitsOfBits_wordOf Nat.one_pos, significandOf, hplaces, Nat.one_mul, Nat.pow_succ',
    divNearest_mul_right (Nat.two_pow_pos _), hmiddle]

/-- Below one half, the sum with one half is below one, but for the double next to one half. -/
theorem rounded_add_half_zero (h : unitsOfBits word < unitsPerHalf)
    (hne : unitsOfBits word + 2 ^ 1020 ≠ unitsPerHalf) :
    rounded (unitsOfBits word + unitsPerHalf) / unitsPerOne = 0 := by
  have hhalf := unitsPerHalf_eq_mul
  have hstep : 2 ^ 1021 = 2 * 2 ^ 1020 := by
    rw [two_pow_split (show 1021 = 1 + 1020 from rfl), Nat.pow_one]
  have hone : 1 * unitsPerOne = 2 ^ 53 * 2 ^ 1021 := by
    rw [Nat.one_mul, unitsPerOne_eq, two_pow_split (show 1074 = 53 + 1021 from rfl)]
  have hgrid := unitsOfBits_grid word 1020
  refine Nat.lt_one_iff.1 (rounded_div_lt (Nat.le_refl _) hone ?_)
  rw [Nat.one_mul, unitsPerOne_eq_half, hstep]
  generalize 2 ^ 1020 = step at hhalf hne hgrid ⊢
  rcases hgrid with ⟨k, hk⟩ | ⟨-, hlt⟩
  · -- one half is a multiple of the step as the double is, and not the next one
    rw [hk, hhalf] at h
    rw [hk, hhalf, ← Nat.succ_mul] at hne
    have hlt := Nat.lt_of_mul_lt_mul_right h
    have hne : k.succ ≠ 2 ^ 53 := fun heq => hne (congrArg (· * step) heq)
    have hle : (k + 2) * step ≤ 2 ^ 53 * step := Nat.mul_le_mul_right step (by omega)
    rw [Nat.add_mul] at hle
    rw [hk]
    omega
  · omega

/-- Between one half and `2 ^ 52`, the rounded sum with one half has the integer part of the exact
one. -/
theorem rounded_add_half_lt (hpos : 0 < whole) (hw : whole < 2 ^ 52)
    (h : unitsOfBits word + unitsPerHalf < (whole + 1) * unitsPerOne) :
    rounded (unitsOfBits word + unitsPerHalf) / unitsPerOne < whole + 1 := by
  obtain ⟨e, he⟩ : ∃ e, e = whole.log2 := ⟨_, rfl⟩
  have hge : 2 ^ e ≤ whole := he ▸ Nat.log2_self_le hpos.ne'
  have hlt : whole < 2 ^ (e + 1) := he ▸ Nat.lt_log2_self
  have hbound : e < 52 := he ▸ (Nat.log2_lt hpos.ne').2 hw
  -- one half and one are multiples of the step of the magnitudes below the integer
  have hhalf : unitsPerHalf = 2 ^ (51 - e) * 2 ^ (e + 1022) := by
    rw [unitsPerHalf_eq (show 1073 = 51 - e + (e + 1022) by omega)]
  have hone : unitsPerOne = 2 ^ (52 - e) * 2 ^ (e + 1022) := by
    rw [unitsPerOne_eq, two_pow_split (show 1074 = 52 - e + (e + 1022) by omega)]
  have hcount : (whole + 1) * 2 ^ (52 - e) ≤ 2 ^ 53 := by
    rw [two_pow_split (show 53 = e + 1 + (52 - e) by omega)]
    exact Nat.mul_le_mul_right _ hlt
  have hbelow : 2 ^ 52 * 2 ^ (e + 1022) ≤ whole * unitsPerOne := by
    rw [two_pow_split (show 52 = e + (52 - e) by omega), Nat.mul_assoc, ← hone]
    exact Nat.mul_le_mul_right _ hge
  have hstep : 2 ^ (e + 1022) ≤ unitsPerHalf :=
    hhalf ▸ Nat.le_mul_of_pos_left _ (Nat.two_pow_pos _)
  have hsucc : (whole + 1) * unitsPerOne = whole * unitsPerOne + 2 * unitsPerHalf := by
    rw [Nat.succ_mul, unitsPerOne_eq_half]
  have hgrid := unitsOfBits_grid word (e + 1022)
  refine rounded_div_lt hcount (by rw [hone, Nat.mul_assoc]) ?_
  generalize 2 ^ (e + 1022) = step at hhalf hone hbelow hstep hgrid ⊢
  rcases hgrid with ⟨k, hk⟩ | ⟨-, hlt⟩
  · rw [hk, hhalf, hone, ← Nat.mul_assoc, ← Nat.add_mul] at h
    have hlt := Nat.lt_of_mul_lt_mul_right h
    rw [hk, hhalf, hone, ← Nat.mul_assoc, ← Nat.add_mul, ← Nat.succ_mul]
    exact Nat.mul_le_mul_right step hlt
  · omega

/-- Below `2 ^ 52` the doubles are multiples of one half, so no rounded sum is beyond it. -/
theorem rounded_add_half_le (h : unitsOfBits word < 2 ^ 52 * unitsPerOne) :
    rounded (unitsOfBits word + unitsPerHalf) / unitsPerOne < 2 ^ 52 + 1 := by
  have hhalf : 2 ^ 1073 = unitsPerHalf := by rw [unitsPerHalf]
  have hone : (2 ^ 52 + 1) * unitsPerOne = (2 ^ 52 + 1) * 2 ^ 1074 := by rw [unitsPerOne_eq]
  have hgrid := unitsOfBits_grid word 1073
  refine rounded_div_lt (by decide) hone ?_
  rw [← unitsPerOne_eq]
  rw [hhalf] at hgrid
  rw [unitsPerOne_eq_half] at h ⊢
  generalize unitsPerHalf = half at h hgrid ⊢
  rcases hgrid with ⟨k, hk⟩ | ⟨-, hlt⟩
  · rw [hk, ← Nat.mul_assoc] at h
    have hlt := Nat.lt_of_mul_lt_mul_right h
    have hle : (k + 1) * half ≤ 2 ^ 53 * half := Nat.mul_le_mul_right half (by omega)
    rw [Nat.add_mul] at hle
    rw [hk]
    omega
  · omega

/-- Below `2 ^ 52` the rounded sum has the integer part of the exact one. -/
theorem rounded_add_half_of_lt (h : unitsOfBits word < 2 ^ 52 * unitsPerOne)
    (hne : unitsOfBits word + 2 ^ 1020 ≠ unitsPerHalf) :
    rounded (unitsOfBits word + unitsPerHalf) / unitsPerOne =
      (unitsOfBits word + unitsPerHalf) / unitsPerOne := by
  obtain ⟨whole, hwhole⟩ : ∃ whole, whole = (unitsOfBits word + unitsPerHalf) / unitsPerOne :=
    ⟨_, rfl⟩
  have hpos := unitsPerOne_pos
  have hle : whole * unitsPerOne ≤ unitsOfBits word + unitsPerHalf :=
    hwhole ▸ Nat.div_mul_le_self ..
  have hlt : unitsOfBits word + unitsPerHalf < (whole + 1) * unitsPerOne := by
    rw [hwhole, ← Nat.div_lt_iff_lt_mul hpos]
    exact Nat.lt_succ_self _
  have hbound : whole < 2 ^ 52 + 1 := by
    refine Nat.lt_of_mul_lt_mul_right (a := unitsPerOne) (hle.trans_lt ?_)
    have hhalf := unitsPerOne_eq_half
    omega
  rw [← hwhole]
  refine Nat.le_antisymm (Nat.le_of_lt_succ ?_) (le_rounded_div (by omega) hle)
  rcases Nat.eq_zero_or_pos whole with rfl | hwpos
  · rw [Nat.zero_add, Nat.one_mul, unitsPerOne_eq_half] at hlt
    rw [rounded_add_half_zero (by omega) hne]
    exact Nat.one_pos
  · rcases Nat.lt_or_eq_of_le (Nat.le_of_lt_succ hbound) with hw | rfl
    · exact rounded_add_half_lt hwpos hw hlt
    · exact rounded_add_half_le h

/-- The sum of an integer from `2 ^ 52` to `2 ^ 53` with one half is rounded to an even integer. -/
theorem rounded_add_half_whole (hge : 2 ^ 52 ≤ whole) (hlt : whole < 2 ^ 53) :
    rounded (whole * unitsPerOne + unitsPerHalf) / unitsPerOne = whole + whole % 2 := by
  have hsum : whole * unitsPerOne + unitsPerHalf = (2 * whole + 1) * 2 ^ 1073 := by
    rw [unitsPerOne_eq_half, ← unitsPerHalf]
    ring
  have hone : 2 ^ (1073 + 1) = unitsPerOne := by rw [unitsPerOne_eq]
  rw [hsum, rounded_middle hge hlt, hone, Nat.mul_div_cancel _ unitsPerOne_pos]

/-- From `2 ^ 53` on the sum with one half is rounded to the number itself. -/
theorem rounded_add_half_of_ge (h : 2 ^ 53 * unitsPerOne ≤ unitsOfBits word) :
    rounded (unitsOfBits word + unitsPerHalf) = unitsOfBits word := by
  have hstep : 2 ^ 1075 = 2 * unitsPerOne := by
    rw [unitsPerOne_eq, two_pow_split (show 1075 = 1 + 1074 from rfl), Nat.pow_one]
  have hpos := unitsPerOne_pos
  have hhalf := unitsPerOne_eq_half
  have hge : unitsOfBits word ≤ rounded (unitsOfBits word + unitsPerHalf) :=
    unitsOfBits_le_rounded (Nat.le_add_right _ _)
  have hle := rounded_nearest (unitsOfBits word + unitsPerHalf) word
  rw [Nat.dist_comm _ (unitsOfBits word), Nat.dist_eq_sub_of_le (Nat.le_add_right _ _)] at hle
  unfold Nat.dist at hle
  -- both are multiples of two, and so too far from each other unless they are the same
  have hgrid := unitsOfBits_grid word 1075
  have hgrid' := unitsOfBits_grid (wordOf (unitsOfBits word + unitsPerHalf) 1) 1075
  rw [← rounded, hstep] at hgrid'
  rw [hstep] at hgrid
  obtain ⟨k, hk⟩ := hgrid.resolve_right (by omega)
  obtain ⟨k', hk'⟩ := hgrid'.resolve_right (by omega)
  have hkk : k' < k + 1 := by
    refine Nat.lt_of_mul_lt_mul_right (a := 2 * unitsPerOne) ?_
    rw [Nat.succ_mul k, ← hk, ← hk']
    omega
  have hkk' : k ≤ k' := by
    refine Nat.le_of_mul_le_mul_right (c := 2 * unitsPerOne) ?_ (by omega)
    rw [← hk, ← hk']
    exact hge
  rw [hk', hk, Nat.le_antisymm (Nat.le_of_lt_succ hkk) hkk']

/-- The double next to one half has a sum with one half that is rounded to one. -/
theorem rounded_add_half_next (h : unitsOfBits word + 2 ^ 1020 = unitsPerHalf) :
    rounded (unitsOfBits word + unitsPerHalf) / unitsPerOne = 1 := by
  have hhalf := unitsPerHalf_eq_mul
  have hsum : unitsOfBits word + unitsPerHalf = (2 * (2 ^ 53 - 1) + 1) * 2 ^ 1020 := by
    generalize 2 ^ 1020 = step at h hhalf ⊢
    omega
  have hone : 2 ^ 53 * 2 ^ (1020 + 1) = unitsPerOne := by
    rw [unitsPerOne_eq, two_pow_split (show 1074 = 53 + 1021 from rfl)]
  have heven : 2 ^ 53 - 1 + (2 ^ 53 - 1) % 2 = 2 ^ 53 := by decide
  rw [hsum, rounded_middle (by decide) (by decide), heven, hone, Nat.div_self unitsPerOne_pos]

/-! ## Truncation -/

/-- The integer part of a magnitude is a magnitude. -/
theorem exists_wordOf_whole (word : Nat) :
    ∃ whole, unitsOfBits whole = unitsOfBits word / unitsPerOne * unitsPerOne := by
  rcases whole_or_lt word with ⟨k, hk⟩ | hlt
  · exact ⟨word, by rw [hk, Nat.mul_div_cancel _ unitsPerOne_pos]⟩
  · have hquotient := (Nat.div_lt_iff_lt_mul unitsPerOne_pos).2 hlt
    have hexists := exists_unitsOfBits (hquotient.le.trans (by decide)) 1074
    rwa [← unitsPerOne_eq] at hexists

variable {x y : Float}

/-- The double of a magnitude with a sign. -/
theorem ofScaled_unitsOfBits (negative : Bool) (h : word ≤ infinityBits) :
    magnitudeBits (ofScaled negative (unitsOfBits word)) = word ∧
      isNegative (ofScaled negative (unitsOfBits word)) = negative := by
  have hmag : magnitudeBits (nearest (unitsOfBits word) unitsPerOne) = word := by
    rw [magnitudeBits_nearest, nearestBits_eq, wordOf_mul unitsPerOne_pos, wordOf_unitsOfBits,
      Nat.min_eq_left h]
  have hsign := withSign_eq negative (hmag.trans_le h) (isNegative_ofBits (Nat.min_le_right _ _))
  rwa [hmag] at hsign

/-- Truncation keeps the sign and takes away the part of the magnitude that is no integer. -/
theorem truncate_eq (hy : isFinite y) : isFinite (truncate y) ∧
    isNegative (truncate y) = isNegative y ∧
    scaled (truncate y) = scaled y / unitsPerOne * unitsPerOne := by
  obtain ⟨whole, hwhole⟩ := exists_wordOf_whole (magnitudeBits y)
  have hle : whole ≤ magnitudeBits y := by
    rw [← unitsOfBits_strictMono.le_iff_le, hwhole]
    exact Nat.div_mul_le_self _ _
  have hlt : whole < infinityBits := hle.trans_lt (of_decide_eq_true hy)
  obtain ⟨hmag, hsign⟩ := ofScaled_unitsOfBits (isNegative y) hlt.le
  rw [truncate, if_pos hy, scaled_eq y, ← hwhole]
  exact ⟨decide_eq_true (hmag.trans_lt hlt), hsign, congrArg unitsOfBits hmag⟩

theorem signedUnits_half : signedUnits 0.5 = unitsPerHalf := by
  have hsign : isNegative 0.5 = false := by decide +kernel
  have hword : magnitudeBits 0.5 = 1021 * 2 ^ 52 + 2 ^ 52 := by decide +kernel
  rw [signedUnits, hsign, scaled_eq, hword, unitsOfBits_eq (by decide) (.inr (Nat.le_refl _)),
    unitsPerHalf_eq (show 1073 = 52 + 1021 from rfl)]
  exact place_false _

theorem lt_zero_iff (hx : isFinite x) : x < 0.0 ↔ signedUnits x < 0 := by
  have hzero : (0.0 : Float).isNaN = false ∧ orderedBits 0.0 = 0 := by decide +kernel
  have hunits : unitsOfBits (magnitudeBits x) ≠ 0 ↔ magnitudeBits x ≠ 0 :=
    unitsOfBits_strictMono.injective.ne_iff' unitsOfBits_zero
  rw [lt_iff_orderedBits_lt (isNaN_of_isFinite hx) hzero.1, hzero.2, orderedBits_eq, signedUnits,
    place_neg_iff, place_neg_iff, scaled_eq, hunits]

/-- The sum of a finite magnitude with one half is finite. -/
theorem wordOf_add_half_lt (h : word < infinityBits) :
    wordOf (unitsOfBits word + unitsPerHalf) 1 < infinityBits := by
  have hle := unitsOfBits_le_of_lt h
  have hhalf : unitsPerHalf < 2 ^ 2044 := by
    rw [unitsPerHalf, Nat.pow_lt_pow_iff_right (by decide)]
    decide
  have hstep : 2 ^ 2045 = 2 * 2 ^ 2044 := by
    rw [two_pow_split (show 2045 = 1 + 2044 from rfl), Nat.pow_one]
  rw [← Nat.not_le, infinityBits_le_wordOf_iff Nat.one_pos, Nat.one_mul]
  rw [hstep] at hle
  generalize 2 ^ 2044 = step at hle hhalf ⊢
  omega

/-- The magnitude of a rounded double is the integer part of its rounded sum with one half. -/
theorem roundHalfAway_eq (hx : isFinite x) : isFinite (roundHalfAway x) ∧
    isNegative (roundHalfAway x) = decide (signedUnits x < 0) ∧
    scaled (roundHalfAway x) = rounded (scaled x + unitsPerHalf) / unitsPerOne * unitsPerOne := by
  have hfinite : isFinite 0.5 := by decide +kernel
  have hpos := unitsPerHalf_pos
  have habs : (signedUnits x).natAbs = scaled x := natAbs_place _ _
  have hsum : ∃ units : Int, IsSum units (if x < 0.0 then x - 0.5 else x + 0.5) ∧
      units.natAbs = scaled x + unitsPerHalf ∧ (units < 0 ↔ signedUnits x < 0) := by
    split
    · next h =>
      have hneg := (lt_zero_iff hx).1 h
      refine ⟨_, isSum_sub hx hfinite, ?_, ?_⟩ <;> rw [signedUnits_half] <;> omega
    · next h =>
      have hneg := mt (lt_zero_iff hx).2 h
      refine ⟨_, isSum_add hx hfinite, ?_, ?_⟩ <;> rw [signedUnits_half] <;> omega
  obtain ⟨units, hsum, hunits, hsign⟩ := hsum
  have hword := wordOf_add_half_lt (of_decide_eq_true hx : magnitudeBits x < infinityBits)
  have hmag := hsum.magnitude
  rw [hunits, scaled_eq, Nat.min_eq_left hword.le] at hmag
  obtain ⟨hfinite, hneg, hscaled⟩ := truncate_eq (y := if x < 0.0 then x - 0.5 else x + 0.5)
    (decide_eq_true (hmag.trans_lt hword))
  rw [hsum.sign (by omega), decide_eq_decide.2 hsign] at hneg
  rw [scaled_eq (if x < 0.0 then x - 0.5 else x + 0.5), hmag, ← rounded] at hscaled
  exact ⟨hfinite, hneg, hscaled⟩

/-! ## Values -/

theorem exactValue_eq (x : Float) : exactValue x = (signedUnits x : ℚ) / unitsPerOne := by
  rw [exactValue, cast_unitsPerOne, signedUnits]
  cases isNegative x <;> simp

/-- An integer that is nearest to a number, and of two that are as near the one farther from
zero. -/
structure IsRounded (n : ℤ) (q : ℚ) : Prop where
  nearest (m : ℤ) : |q - n| ≤ |q - m|
  away (m : ℤ) : |q - n| = |q - m| → |m| ≤ |n|

theorem IsRounded.eq_of_eq {n k : ℤ} {q : ℚ} (h : IsRounded n q) (hk : q = k) : n = k := by
  have hle := h.nearest k
  rw [hk, sub_self, abs_zero, abs_nonpos_iff, sub_eq_zero] at hle
  exact_mod_cast hle.symm

theorem IsRounded.neg {n : ℤ} {q : ℚ} (h : IsRounded n q) : IsRounded (-n) (-q) := by
  have hneg (m : ℤ) : |-q - m| = |q - (-m : ℤ)| := by
    rw [← abs_neg]
    push_cast
    congr 1
    ring
  refine ⟨fun m => ?_, fun m hm => ?_⟩
  · rw [hneg, hneg, neg_neg]
    exact h.nearest (-m)
  · rw [hneg, hneg, neg_neg] at hm
    rw [abs_neg, ← abs_neg m]
    exact h.away (-m) hm

theorem isRounded_of_le {k : ℕ} {q : ℚ} (hq : 0 ≤ q) (hle : (k : ℚ) ≤ q + 1 / 2)
    (hlt : q + 1 / 2 < k + 1) : IsRounded k q := by
  have hround : round q = k := by
    rw [round_eq, Int.floor_eq_iff]
    exact ⟨hle, hlt⟩
  have hnear : |q - (k : ℤ)| ≤ 1 / 2 := by
    rw [Int.cast_natCast, abs_le]
    constructor <;> linarith
  refine ⟨fun m => hround ▸ round_le q m, fun m heq => ?_⟩
  rw [heq, abs_le] at hnear
  have hm : -1 < m := by
    have hgt : ((-1 : ℤ) : ℚ) < m := by
      push_cast
      linarith
    exact_mod_cast hgt
  have hmk : m < k + 1 := by
    by_contra hge
    have hge : (k : ℚ) + 1 ≤ m := by exact_mod_cast Int.not_lt.1 hge
    -- the integer above is farther than by one half
    linarith
  rw [abs_of_nonneg (by omega), abs_of_nonneg (by omega)]
  omega

/-- The numbers that are rounded one beyond the nearest integer: those next to one half, and the odd
integers between `2 ^ 52` and `2 ^ 53`. -/
def Overshoots (q : ℚ) : Prop :=
  |q| = 1 / 2 - 1 / 2 ^ 54 ∨ ∃ k : ℤ, Odd k ∧ q = k ∧ 2 ^ 52 < |k| ∧ |k| < 2 ^ 53

theorem overshoots_iff (units : Nat) : Overshoots (units / unitsPerOne) ↔
    units + 2 ^ 1020 = unitsPerHalf ∨
      ∃ k : ℕ, Odd k ∧ units = k * unitsPerOne ∧ 2 ^ 52 < k ∧ k < 2 ^ 53 := by
  have hpos : (0 : ℚ) < unitsPerOne := Nat.cast_pos.2 unitsPerOne_pos
  have hnonneg : (0 : ℚ) ≤ units / unitsPerOne := div_nonneg (Nat.cast_nonneg _) hpos.le
  refine or_congr ?_ ⟨?_, ?_⟩
  · have hhalf := unitsPerHalf_eq_mul
    have hone := unitsPerOne_eq_half
    rw [abs_of_nonneg hnonneg, div_eq_iff hpos.ne', hone, hhalf]
    generalize 2 ^ 1020 = step
    rw [← Nat.cast_inj (R := ℚ)]
    push_cast
    constructor <;> intro h <;> linarith
  · rintro ⟨k, hodd, heq, hgt, hlt⟩
    have hk : 0 ≤ k := by
      have hk : (0 : ℚ) ≤ k := hnonneg.trans_eq heq
      exact_mod_cast hk
    lift k to ℕ using hk
    rw [Int.cast_natCast, div_eq_iff hpos.ne'] at heq
    rw [abs_of_nonneg (Int.natCast_nonneg k)] at hgt hlt
    exact ⟨k, by exact_mod_cast hodd, by exact_mod_cast heq, by exact_mod_cast hgt,
      by exact_mod_cast hlt⟩
  · rintro ⟨k, hodd, heq, hgt, hlt⟩
    refine ⟨k, by exact_mod_cast hodd, ?_, ?_, ?_⟩
    · rw [Int.cast_natCast, heq, Nat.cast_mul, mul_div_cancel_right₀ _ hpos.ne']
    · rw [abs_of_nonneg (Int.natCast_nonneg k)]
      exact_mod_cast hgt
    · rw [abs_of_nonneg (Int.natCast_nonneg k)]
      exact_mod_cast hlt

/-- The integer that a magnitude is rounded to, unless it is rounded to one beyond. -/
theorem rounded_add_half (h : ¬ Overshoots (unitsOfBits word / unitsPerOne)) :
    rounded (unitsOfBits word + unitsPerHalf) / unitsPerOne =
      (unitsOfBits word + unitsPerHalf) / unitsPerOne := by
  rw [overshoots_iff, not_or] at h
  rcases Nat.lt_or_ge (unitsOfBits word) (2 ^ 52 * unitsPerOne) with hlt | hge
  · exact rounded_add_half_of_lt hlt h.1
  obtain ⟨k, hk⟩ := (whole_or_lt word).resolve_right (Nat.not_lt.2 hge)
  have hexact : (k * unitsPerOne + unitsPerHalf) / unitsPerOne = k := by
    have hone := unitsPerOne_eq_half
    have hpos := unitsPerHalf_pos
    rw [Nat.mul_comm, Nat.mul_add_div unitsPerOne_pos, Nat.div_eq_of_lt (by omega), Nat.add_zero]
  rw [hk, ge_iff_le, Nat.mul_le_mul_right_iff unitsPerOne_pos] at hge
  rw [hk, hexact]
  rcases Nat.lt_or_ge k (2 ^ 53) with hlt | hge'
  · have heven : k % 2 = 0 := by
      by_contra hodd
      have hodd : Odd k := Nat.odd_iff.2 (by omega)
      refine h.2 ⟨k, hodd, hk, Nat.lt_of_le_of_ne hge fun heq => ?_, hlt⟩
      rw [← heq] at hodd
      exact absurd hodd (by decide)
    rw [rounded_add_half_whole hge hlt, heven, Nat.add_zero]
  · have hle : 2 ^ 53 * unitsPerOne ≤ unitsOfBits word := by
      rw [hk]
      exact Nat.mul_le_mul_right _ hge'
    rw [← hk, rounded_add_half_of_ge hle, hk, Nat.mul_div_cancel _ unitsPerOne_pos]

theorem rounded_add_half_overshoots (h : Overshoots (unitsOfBits word / unitsPerOne)) :
    rounded (unitsOfBits word + unitsPerHalf) / unitsPerOne =
      unitsOfBits word / unitsPerOne + 1 := by
  rcases (overshoots_iff _).1 h with h | ⟨k, hodd, hk, hgt, hlt⟩
  · have hone := unitsPerOne_eq_half
    have hpos := unitsPerHalf_pos
    rw [rounded_add_half_next h, Nat.div_eq_of_lt (by omega)]
  · rw [hk, rounded_add_half_whole hgt.le hlt, Nat.odd_iff.1 hodd,
      Nat.mul_div_cancel _ unitsPerOne_pos]

/-- What a number is rounded to. -/
structure RoundsTo (q : ℚ) (n : ℤ) : Prop where
  rounded : ¬ Overshoots q → IsRounded n q
  beyond : Overshoots q → 0 < q * n ∧ |n| = ⌊|q|⌋ + 1

theorem overshoots_ne_zero {q : ℚ} (h : Overshoots q) : q ≠ 0 := by
  rintro rfl
  rcases h with h | ⟨k, hodd, hk, -⟩
  · norm_num at h
  · rw [eq_comm, Int.cast_eq_zero] at hk
    exact absurd (hk ▸ hodd) (by decide)

theorem overshoots_neg (q : ℚ) : Overshoots (-q) ↔ Overshoots q := by
  have hneg {q : ℚ} (h : Overshoots q) : Overshoots (-q) := by
    rcases h with h | ⟨k, hodd, rfl, hk⟩
    · exact .inl ((abs_neg q).trans h)
    · refine .inr ⟨-k, hodd.neg, (Int.cast_neg k).symm, ?_⟩
      rwa [abs_neg]
  exact ⟨fun h => neg_neg q ▸ hneg h, hneg⟩

theorem RoundsTo.neg {q : ℚ} {n : ℤ} (h : RoundsTo q n) : RoundsTo (-q) (-n) := by
  refine ⟨fun hover => (h.rounded (mt (overshoots_neg q).2 hover)).neg, fun hover => ?_⟩
  rw [Int.cast_neg, neg_mul_neg, abs_neg, abs_neg]
  exact h.beyond ((overshoots_neg q).1 hover)

/-- The integer part of the rounded sum with one half is what a magnitude is rounded to. -/
theorem roundsTo_magnitude (word : Nat) : RoundsTo (unitsOfBits word / unitsPerOne)
    (rounded (unitsOfBits word + unitsPerHalf) / unitsPerOne : Nat) := by
  have hpos : (0 : ℚ) < unitsPerOne := Nat.cast_pos.2 unitsPerOne_pos
  have hnonneg : (0 : ℚ) ≤ unitsOfBits word / unitsPerOne :=
    div_nonneg (Nat.cast_nonneg _) hpos.le
  refine ⟨fun h => ?_, fun h => ?_⟩
  · have hsum : (unitsOfBits word / unitsPerOne : ℚ) + 1 / 2 =
        (unitsOfBits word + unitsPerHalf : Nat) / unitsPerOne := by
      rw [Nat.cast_add, add_div, unitsPerOne_eq_half, Nat.cast_mul, Nat.cast_ofNat,
        div_mul_cancel_right₀ (Nat.cast_ne_zero.2 unitsPerHalf_pos.ne'), one_div]
    rw [rounded_add_half h, ← Nat.floor_div_eq_div (K := ℚ)]
    refine isRounded_of_le hnonneg ?_ ?_ <;> rw [hsum]
    · exact Nat.floor_le (div_nonneg (Nat.cast_nonneg _) hpos.le)
    · exact Nat.lt_floor_add_one _
  · rw [rounded_add_half_overshoots h, abs_of_nonneg hnonneg, Rat.floor_natCast_div_natCast,
      Nat.cast_succ]
    refine ⟨mul_pos (lt_of_le_of_ne hnonneg (overshoots_ne_zero h).symm) (by positivity), ?_⟩
    exact abs_of_nonneg (by positivity)

theorem signedUnits_roundHalfAway (hx : isFinite x) : signedUnits (roundHalfAway x) =
    place (decide (signedUnits x < 0))
      (rounded (scaled x + unitsPerHalf) / unitsPerOne) * unitsPerOne := by
  obtain ⟨-, hsign, hscaled⟩ := roundHalfAway_eq hx
  rw [signedUnits, hsign, hscaled, place_mul]

theorem signedUnits_eq (x : Float) :
    signedUnits x = place (decide (signedUnits x < 0)) (scaled x) := by
  have habs : (signedUnits x).natAbs = scaled x := natAbs_place _ _
  by_cases h : signedUnits x < 0
  · rw [decide_eq_true h, place_true]
    omega
  · rw [decide_eq_false h, place_false]
    omega

/-- A finite double is rounded to the nearest integer, and to the one farther from zero if two are
as near, so an integer stays as it is. Only the numbers that overshoot come out with one more than
their integer part. -/
theorem roundHalfAway_isRounded (hx : isFinite x) : ∃ n : ℤ, isFinite (roundHalfAway x) ∧
    exactValue (roundHalfAway x) = n ∧
    (¬ Overshoots (exactValue x) →
      IsRounded n (exactValue x) ∧ ∀ k : ℤ, exactValue x = k → n = k) ∧
    (Overshoots (exactValue x) → 0 < exactValue x * n ∧ |n| = ⌊|exactValue x|⌋ + 1) := by
  have hone : (unitsPerOne : ℚ) ≠ 0 := Nat.cast_ne_zero.2 unitsPerOne_pos.ne'
  have hvalue : exactValue (roundHalfAway x) = (place (decide (signedUnits x < 0))
      (rounded (scaled x + unitsPerHalf) / unitsPerOne) : ℤ) := by
    rw [exactValue_eq, signedUnits_roundHalfAway hx, Int.cast_mul, Int.cast_natCast,
      mul_div_cancel_right₀ _ hone]
  have hrounds : RoundsTo (exactValue x) (place (decide (signedUnits x < 0))
      (rounded (scaled x + unitsPerHalf) / unitsPerOne)) := by
    have hmagnitude := roundsTo_magnitude (magnitudeBits x)
    rw [← scaled_eq] at hmagnitude
    have hunits := signedUnits_eq x
    generalize decide (signedUnits x < 0) = negative at hunits ⊢
    rw [exactValue_eq, hunits]
    cases negative
    · rw [place_false, place_false, Int.cast_natCast]
      exact hmagnitude
    · rw [place_true, place_true, Int.cast_neg, Int.cast_natCast, neg_div]
      exact hmagnitude.neg
  refine ⟨_, (roundHalfAway_eq hx).1, hvalue, fun h => ⟨hrounds.rounded h, fun k hk => ?_⟩,
    hrounds.beyond⟩
  exact (hrounds.rounded h).eq_of_eq hk

/-- The value of the double of a significand and its places. -/
theorem exactValue_of_word (places significand k : Nat) (hn : isNegative x = false)
    (hw : magnitudeBits x = places * 2 ^ 52 + significand) (hs : significand ≤ 2 ^ 53)
    (hp : places = 0 ∨ 2 ^ 52 ≤ significand) (hk : 1074 = places + k) :
    exactValue x = significand / 2 ^ k := by
  have hpow : (2 : ℚ) ^ places ≠ 0 := by positivity
  rw [exactValue, hn, if_neg Bool.false_ne_true, scaled_eq, hw, unitsOfBits_eq hs hp, hk, pow_add,
    Nat.cast_mul, Nat.cast_pow, Nat.cast_ofNat, mul_comm, mul_div_mul_left _ _ hpow]

/-- Two and a half is rounded to three. -/
theorem roundHalfAway_isRounded_half : isFinite 2.5 ∧ ¬ Overshoots (5 / 2) ∧
    ∃ n : ℤ, exactValue (roundHalfAway 2.5) = n ∧ IsRounded n (5 / 2) := by
  have hfinite : isFinite 2.5 := by decide +kernel
  have hvalue : exactValue 2.5 = 5 / 2 := by
    rw [exactValue_of_word 1023 (5 * 2 ^ 50) 51
      (by decide +kernel) (by decide +kernel) (by decide) (.inr (by decide)) rfl]
    norm_num
  have hover : ¬ Overshoots (5 / 2) := by
    rintro (h | ⟨k, -, hk, -⟩)
    · norm_num [abs_of_pos] at h
    · rw [div_eq_iff (by norm_num)] at hk
      have hk : 5 = k * 2 := by exact_mod_cast hk
      omega
  obtain ⟨n, -, hn, hrounded, -⟩ := roundHalfAway_isRounded hfinite
  rw [hvalue] at hrounded
  exact ⟨hfinite, hover, n, hn, (hrounded hover).1⟩

/-- The double next to one half is rounded to one, and the odd integer after `2 ^ 52` to the even
one after it. -/
theorem roundHalfAway_beyond :
    exactValue 0.49999999999999994 = 1 / 2 - 1 / 2 ^ 54 ∧
      exactValue (roundHalfAway 0.49999999999999994) = 1 ∧
      ¬ IsRounded 1 (1 / 2 - 1 / 2 ^ 54) ∧
      exactValue 4503599627370497 = 2 ^ 52 + 1 ∧
      exactValue (roundHalfAway 4503599627370497) = 2 ^ 52 + 2 := by
  refine ⟨?_, ?_, ?_, ?_, ?_⟩
  · rw [exactValue_of_word 1020 (2 ^ 53 - 1) 54
      (by decide +kernel) (by decide +kernel) (by decide) (.inr (by decide)) rfl]
    norm_num
  · rw [exactValue_of_word 1022 (2 ^ 52) 52
      (by decide +kernel) (by decide +kernel) (by decide) (.inr (by decide)) rfl]
    norm_num
  · intro h
    have hle := h.nearest 0
    norm_num [abs_of_neg, abs_of_pos] at hle
  · rw [exactValue_of_word 1074 (2 ^ 52 + 1) 0
      (by decide +kernel) (by decide +kernel) (by decide) (.inr (by decide)) rfl]
    norm_num
  · rw [exactValue_of_word 1074 (2 ^ 52 + 2) 0
      (by decide +kernel) (by decide +kernel) (by decide) (.inr (by decide)) rfl]
    norm_num

end FormulaScript.Number
