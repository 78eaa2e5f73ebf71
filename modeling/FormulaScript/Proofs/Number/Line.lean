import FormulaScript.Proofs.Number.Rounding

/-!
# The integer line

Every double that is no NaN has a place on the integer line, the two zeros the same one, and every
place between those of the infinities is that of a double. The extended real numbers that doubles
stand for grow with the places. So comparing doubles is comparing places, and the next double above
one is at the next place.
-/

namespace FormulaScript.Number

open Float.Model

variable {x y : Float} {n : ℤ}

/-- The extended real number that a double stands for, unless it is a NaN. -/
noncomputable def extendedValue (x : Float) : EReal :=
  if isFinite x then ((exactValue x : ℝ) : EReal) else if isNegative x then ⊥ else ⊤

/-- The double is the next one above the other: no double lies between them. -/
structure IsNextAbove (y x : Float) : Prop where
  above : extendedValue x < extendedValue y
  least : ∀ z : Float, z.isNaN = false → extendedValue x < extendedValue z →
    extendedValue y ≤ extendedValue z

/-! ## Numbers at places -/

/-- The number at a place in units of `2 ^ -1074`. The places beyond that of infinity go on with the
magnitudes beyond the largest double. -/
def unitsAt (n : ℤ) : ℤ := place (decide (n < 0)) (unitsOfBits n.natAbs)

theorem unitsAt_natCast (n : ℕ) : unitsAt n = unitsOfBits n := by
  rw [unitsAt, decide_eq_false (Int.not_lt.2 (Int.natCast_nonneg n))]
  rfl

theorem unitsAt_neg (n : ℤ) : unitsAt (-n) = -unitsAt n := by
  rcases Int.lt_trichotomy n 0 with h | rfl | h
  · rw [unitsAt, unitsAt, decide_eq_true h, decide_eq_false (by omega), Int.natAbs_neg, place_true,
      place_false, Int.neg_neg]
  · rfl
  · rw [unitsAt, unitsAt, decide_eq_false (show ¬ n < 0 by omega), decide_eq_true (by omega),
      Int.natAbs_neg, place_true, place_false]

/-- Magnitudes grow with their words, and to the other side of zero they mirror that. -/
theorem unitsAt_strictMono : StrictMono unitsAt := by
  refine strictMono_of_odd_strictMonoOn_nonneg unitsAt_neg fun m hm n hn h => ?_
  lift m to ℕ using hm
  lift n to ℕ using hn
  rw [unitsAt_natCast, unitsAt_natCast]
  exact_mod_cast unitsOfBits_strictMono (Int.ofNat_lt.1 h)

/-- The extended real number at a place. -/
noncomputable def valueAt (n : ℤ) : EReal :=
  if n = infinityBits then ⊤
  else if n = -infinityBits then ⊥
  else (((unitsAt n : ℚ) / unitsPerOne : ℚ) : ℝ)

/-- The places from that of negative to that of positive infinity. -/
abbrev places : Set ℤ := Set.Icc (-infinityBits) infinityBits

theorem valueAt_strictMonoOn : StrictMonoOn valueAt places := by
  intro m hm n hn h
  obtain ⟨hm, -⟩ := hm
  obtain ⟨-, hn⟩ := hn
  have hmtop : m ≠ infinityBits := by omega
  have hnbot : n ≠ -infinityBits := by omega
  rw [valueAt, valueAt, if_neg hmtop, if_neg hnbot]
  split
  · split
    · exact bot_lt_top
    · exact EReal.bot_lt_coe _
  · split
    · exact EReal.coe_lt_top _
    · have hunits : (unitsAt m : ℚ) < unitsAt n := Int.cast_lt.2 (unitsAt_strictMono h)
      have hpos : (0 : ℚ) < unitsPerOne := Nat.cast_pos.2 unitsPerOne_pos
      exact EReal.coe_lt_coe_iff.2 (Rat.cast_lt.2 (div_lt_div_of_pos_right hunits hpos))

/-! ## Doubles at places -/

theorem Unpacks.le_infinityBits {negative : Bool} {magnitude : ℕ} {u : UnpackedFloat}
    (h : Unpacks negative magnitude u) (hu : u ≠ .notANumber) : magnitude ≤ infinityBits := by
  have hi : infinityBits = 2047 * 2 ^ 52 := rfl
  cases h with
  | zero => exact Nat.zero_le _
  | finite hpos hs hp hb => omega
  | infinity => exact Nat.le_refl _
  | notANumber => exact absurd rfl hu

theorem magnitudeBits_le (hx : x.isNaN = false) : magnitudeBits x ≤ infinityBits :=
  (unpacks x).le_infinityBits (isNaN_eq_false_iff.1 hx)

theorem orderedBits_mem_places (hx : x.isNaN = false) : orderedBits x ∈ places := by
  have hle := magnitudeBits_le hx
  have hbounds := place_bounds (isNegative x) (magnitudeBits x)
  rw [← orderedBits_eq] at hbounds
  exact ⟨by omega, by omega⟩

/-- Every place is that of a double. -/
theorem exists_orderedBits (hn : n ∈ places) :
    ∃ z : Float, z.isNaN = false ∧ orderedBits z = n := by
  obtain ⟨hl, hu⟩ := hn
  have hword : n.natAbs ≤ infinityBits := by omega
  let z := withSign (decide (n < 0)) (Float.ofBits (UInt64.ofNat n.natAbs))
  have hmag := magnitudeBits_ofBits hword
  obtain ⟨hz, hsign⟩ : magnitudeBits z = n.natAbs ∧ isNegative z = decide (n < 0) := by
    have h := withSign_eq (decide (n < 0)) (hmag.trans_le hword) (isNegative_ofBits hword)
    rwa [hmag] at h
  refine ⟨z, isNaN_eq_false_iff.2 ((unpacks z).ne_notANumber (hz.trans_le hword)), ?_⟩
  rw [orderedBits_eq, hz, hsign]
  by_cases h : n < 0
  · rw [decide_eq_true h, place_true]
    omega
  · rw [decide_eq_false h, place_false]
    omega

theorem orderedBits_neg (hx : x.isNaN = false) : orderedBits (-x) = -orderedBits x := by
  obtain ⟨hmag, hsign⟩ := neg_eq (magnitudeBits_le hx)
  rw [orderedBits_eq, orderedBits_eq, hmag, hsign]
  cases isNegative x <;> simp

/-- The number of a double is the one at its place. -/
theorem signedUnits_eq_unitsAt (x : Float) : signedUnits x = unitsAt (orderedBits x) := by
  rw [signedUnits, scaled_eq, orderedBits_eq]
  cases isNegative x
  · exact (unitsAt_natCast _).symm
  · rw [place_true, place_true, unitsAt_neg, unitsAt_natCast]

theorem extendedValue_eq (hx : x.isNaN = false) : extendedValue x = valueAt (orderedBits x) := by
  have hle := magnitudeBits_le hx
  have hi : infinityBits = 2047 * 2 ^ 52 := rfl
  by_cases hfinite : isFinite x
  · have hlt : magnitudeBits x < infinityBits := of_decide_eq_true hfinite
    have hbounds := place_bounds (isNegative x) (magnitudeBits x)
    rw [← orderedBits_eq] at hbounds
    rw [extendedValue, valueAt, if_pos hfinite, if_neg (by omega), if_neg (by omega), exactValue_eq,
      signedUnits_eq_unitsAt]
  · have heq : magnitudeBits x = infinityBits :=
      Nat.le_antisymm hle (Nat.le_of_not_lt fun hlt => hfinite (decide_eq_true hlt))
    rw [extendedValue, valueAt, if_neg hfinite, orderedBits_eq, heq]
    cases isNegative x
    · simp
    · have hne : -(infinityBits : ℤ) ≠ infinityBits := by omega
      simp [hne]

theorem extendedValue_lt_iff (hx : x.isNaN = false) (hy : y.isNaN = false) :
    extendedValue x < extendedValue y ↔ orderedBits x < orderedBits y := by
  rw [extendedValue_eq hx, extendedValue_eq hy]
  exact valueAt_strictMonoOn.lt_iff_lt (orderedBits_mem_places hx) (orderedBits_mem_places hy)

theorem extendedValue_le_iff (hx : x.isNaN = false) (hy : y.isNaN = false) :
    extendedValue x ≤ extendedValue y ↔ orderedBits x ≤ orderedBits y := by
  rw [extendedValue_eq hx, extendedValue_eq hy]
  exact valueAt_strictMonoOn.le_iff_le (orderedBits_mem_places hx) (orderedBits_mem_places hy)

theorem extendedValue_eq_iff (hx : x.isNaN = false) (hy : y.isNaN = false) :
    extendedValue x = extendedValue y ↔ orderedBits x = orderedBits y := by
  rw [extendedValue_eq hx, extendedValue_eq hy]
  exact valueAt_strictMonoOn.injOn.eq_iff (orderedBits_mem_places hx) (orderedBits_mem_places hy)

/-- Between two places that are not next to each other is that of another double. -/
theorem isNextAbove_iff (hx : x.isNaN = false) (hy : y.isNaN = false) :
    IsNextAbove y x ↔ orderedBits y = orderedBits x + 1 := by
  constructor
  · intro h
    have hlt := (extendedValue_lt_iff hx hy).1 h.above
    obtain ⟨hlx, -⟩ := orderedBits_mem_places hx
    obtain ⟨-, huy⟩ := orderedBits_mem_places hy
    obtain ⟨z, hz, hnext⟩ := exists_orderedBits (n := orderedBits x + 1) ⟨by omega, by omega⟩
    have hle := h.least z hz ((extendedValue_lt_iff hx hz).2 (by omega))
    rw [extendedValue_le_iff hy hz] at hle
    omega
  · intro h
    refine ⟨(extendedValue_lt_iff hx hy).2 (by omega), fun z hz hlt => ?_⟩
    rw [extendedValue_lt_iff hx hz] at hlt
    exact (extendedValue_le_iff hy hz).2 (by omega)

theorem orderedBits_eq_zero_iff (hx : x.isNaN = false) :
    orderedBits x = 0 ↔ extendedValue x = 0 := by
  have hzero : valueAt 0 = 0 := by
    have hi : infinityBits = 2047 * 2 ^ 52 := rfl
    have hunits : unitsAt 0 = 0 := rfl
    rw [valueAt, if_neg (by omega), if_neg (by omega), hunits, Int.cast_zero, zero_div,
      Rat.cast_zero, EReal.coe_zero]
  have hmem : (0 : ℤ) ∈ places := ⟨by omega, by omega⟩
  rw [extendedValue_eq hx, ← hzero]
  exact (valueAt_strictMonoOn.injOn.eq_iff (orderedBits_mem_places hx) hmem).symm

/-- The places of the doubles that are no NaNs are in the order of the numbers that they stand for,
with both zeros at 0 and a double opposite to its negation, and the next double above one is at the
next place. -/
theorem orderedBits_embedding (hx : x.isNaN = false) (hy : y.isNaN = false) :
    (orderedBits x < orderedBits y ↔ extendedValue x < extendedValue y) ∧
    (orderedBits x = orderedBits y ↔ extendedValue x = extendedValue y) ∧
    (orderedBits x = 0 ↔ extendedValue x = 0) ∧
    orderedBits (-x) = -orderedBits x ∧
    (IsNextAbove y x ↔ orderedBits y = orderedBits x + 1) :=
  ⟨(extendedValue_lt_iff hx hy).symm, (extendedValue_eq_iff hx hy).symm, orderedBits_eq_zero_iff hx,
    orderedBits_neg hx, isNextAbove_iff hx hy⟩

/-- The least double above zero is the next one above the negative zero. -/
theorem orderedBits_embedding_zero :
    (-0.0 : Float).isNaN = false ∧ (5e-324 : Float).isNaN = false ∧
      extendedValue (-0.0) = 0 ∧ IsNextAbove 5e-324 (-0.0) := by
  have hx : (-0.0 : Float).isNaN = false := by decide +kernel
  have hy : (5e-324 : Float).isNaN = false := by decide +kernel
  have hzero : orderedBits (-0.0) = 0 := by decide +kernel
  have hnext : orderedBits 5e-324 = orderedBits (-0.0) + 1 := by decide +kernel
  obtain ⟨-, -, hvalue, -, habove⟩ := orderedBits_embedding hx hy
  exact ⟨hx, hy, hvalue.1 hzero, habove.2 hnext⟩

end FormulaScript.Number
