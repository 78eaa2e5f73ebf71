import FormulaScript.Proofs.Number.Literal

/-!
# The nearest double

The words of the doubles that are not negative, in order, are those of growing magnitudes: from one
power of two to the next, `2 ^ 52` of them lie on a grid whose step doubles with each power. The
word that `nearestBits` computes is on the grid of the number it rounds, and no other double is
nearer.
-/

namespace FormulaScript.Number

open Float.Model UnpackedFloat

variable {num den units places significand : Nat}

/-! ## Words -/

/-- The magnitude of a double, from its word without the sign bit, as a multiple of `2 ^ -1074`. The
words from that of infinity on stand for the magnitudes beyond the largest double. -/
def unitsOfBits (word : Nat) : Nat :=
  if word / 2 ^ 52 = 0 then word % 2 ^ 52
  else (2 ^ 52 + word % 2 ^ 52) * 2 ^ (word / 2 ^ 52 - 1)

theorem scaled_eq (x : Float) : scaled x = unitsOfBits (magnitudeBits x) := rfl

theorem unitsOfBits_eq (hs : significand ≤ 2 ^ 53) (h : places = 0 ∨ 2 ^ 52 ≤ significand) :
    unitsOfBits (places * 2 ^ 52 + significand) = significand * 2 ^ places := by
  unfold unitsOfBits
  rcases Nat.lt_or_ge significand (2 ^ 52) with hlt | hge
  · obtain rfl : places = 0 := h.resolve_right (by omega)
    rw [if_pos (by omega)]
    omega
  · rcases Nat.lt_or_eq_of_le hs with hlt | rfl
    · have hdiv : (places * 2 ^ 52 + significand) / 2 ^ 52 = places + 1 := by omega
      have hmod : 2 ^ 52 + (places * 2 ^ 52 + significand) % 2 ^ 52 = significand := by omega
      rw [hdiv, hmod, if_neg (by omega), Nat.add_sub_cancel]
    · -- the carry into the next binade
      have hdiv : (places * 2 ^ 52 + 2 ^ 53) / 2 ^ 52 = places + 2 := by omega
      have hmod : (places * 2 ^ 52 + 2 ^ 53) % 2 ^ 52 = 0 := by omega
      rw [hdiv, hmod, if_neg (by omega)]
      show (2 ^ 52 + 0) * 2 ^ (places + 1) = 2 ^ 53 * 2 ^ places
      rw [Nat.pow_succ]
      omega

/-- A magnitude lies on a grid, or below the binade that the grid is for. -/
theorem unitsOfBits_grid (word places : Nat) :
    (∃ k, unitsOfBits word = k * 2 ^ places) ∨
      0 < places ∧ unitsOfBits word < 2 ^ 52 * 2 ^ places := by
  have hmod : word % 2 ^ 52 < 2 ^ 52 := Nat.mod_lt _ (by decide)
  unfold unitsOfBits
  split
  · rcases Nat.eq_zero_or_pos places with rfl | hp
    · exact .inl ⟨_, (Nat.mul_one _).symm⟩
    · exact .inr ⟨hp, hmod.trans_le (Nat.le_mul_of_pos_right _ (Nat.two_pow_pos _))⟩
  · rcases Nat.lt_or_ge (word / 2 ^ 52 - 1) places with hlt | hge
    · refine .inr ⟨by omega, ?_⟩
      calc (2 ^ 52 + word % 2 ^ 52) * 2 ^ (word / 2 ^ 52 - 1)
          < 2 ^ 53 * 2 ^ (word / 2 ^ 52 - 1) :=
            Nat.mul_lt_mul_of_pos_right (by omega) (Nat.two_pow_pos _)
        _ = 2 ^ 52 * 2 ^ (word / 2 ^ 52 - 1 + 1) := by rw [Nat.pow_succ]; omega
        _ ≤ 2 ^ 52 * 2 ^ places :=
            Nat.mul_le_mul_left _ (Nat.pow_le_pow_right (by decide) hlt)
    · refine .inl ⟨(2 ^ 52 + word % 2 ^ 52) * 2 ^ (word / 2 ^ 52 - 1 - places), ?_⟩
      rw [Nat.mul_assoc, ← Nat.pow_add, Nat.sub_add_cancel hge]

/-! ## Quotients -/

/-- A rounded quotient is off by half at most, and even if it is off by half. -/
theorem divNearest_spec (hd : 0 < den) (num : Nat) :
    2 * Nat.dist num (divNearest num den * den) ≤ den ∧
      (2 * Nat.dist num (divNearest num den * den) = den → Even (divNearest num den)) := by
  have hsplit : num / den * den + num % den = num := by rw [Nat.mul_comm]; exact Nat.div_add_mod ..
  have hlt : num % den < den := Nat.mod_lt num hd
  have hsucc : (num / den + 1) * den = num / den * den + den := Nat.succ_mul ..
  unfold divNearest Nat.dist
  dsimp only
  split
  · exact ⟨by omega, by omega⟩
  · split
    · rw [hsucc]
      exact ⟨by omega, by omega⟩
    · rcases Nat.mod_two_eq_zero_or_one (num / den) with h | h
      · rw [h, Nat.add_zero]
        exact ⟨by omega, fun _ => Nat.even_iff.2 h⟩
      · rw [h, hsucc]
        exact ⟨by omega, fun _ => Nat.even_iff.2 (by omega)⟩

theorem divNearest_cases (num den : Nat) :
    divNearest num den = num / den ∨ divNearest num den = num / den + 1 := by
  unfold divNearest
  dsimp only
  split
  · exact .inl rfl
  · split
    · exact .inr rfl
    · rcases Nat.mod_two_eq_zero_or_one (num / den) with h | h <;> simp [h]

theorem mul_dist_le (hne : k ≠ significand) (den : Nat) :
    den ≤ Nat.dist (k * den) (significand * den) := by
  rw [Nat.dist_mul_right]
  exact Nat.le_mul_of_pos_left _ (Nat.dist_pos_of_ne hne)

/-- No multiple of the divisor is nearer than that by the rounded quotient, and if another is as
near, the rounded quotient is even. -/
theorem divNearest_nearest (hd : 0 < den) (num k : Nat) :
    Nat.dist num (divNearest num den * den) ≤ Nat.dist num (k * den) ∧
      (k ≠ divNearest num den →
        Nat.dist num (divNearest num den * den) = Nat.dist num (k * den) →
        Even (divNearest num den)) := by
  obtain ⟨hle, heven⟩ := divNearest_spec hd num
  by_cases hk : k = divNearest num den
  · exact ⟨hk ▸ Nat.le_refl _, fun h => absurd hk h⟩
  · have hgap := mul_dist_le hk den
    have htriangle := Nat.dist.triangle_inequality (k * den) num (divNearest num den * den)
    rw [Nat.dist_comm (k * den) num] at htriangle
    exact ⟨by omega, fun _ h => heven (by omega)⟩

/-! ## The word of a quotient -/

/-- The number of binary places that the unit of a quotient's significand lies above one. -/
def placesOf (units den : Nat) : Nat := Nat.log2 (units / den) - 52

/-- The quotient in units of its places, rounded. -/
def significandOf (units den : Nat) : Nat := divNearest units (den * 2 ^ placesOf units den)

/-- The word of the rounded quotient, be it beyond the largest double. -/
def wordOf (units den : Nat) : Nat := placesOf units den * 2 ^ 52 + significandOf units den

theorem nearestBits_eq (num den : Nat) :
    nearestBits num den = min (wordOf (num * unitsPerOne) den) infinityBits := rfl

theorem mul_two_pow_add (den p q : Nat) : den * 2 ^ p * 2 ^ q = den * 2 ^ (p + q) := by
  rw [Nat.mul_assoc, ← Nat.pow_add]

/-- The quotient is below the binade after that of its places, and not below that, unless its
places are none. -/
theorem placesOf_spec (hd : 0 < den) (units : Nat) :
    units < den * 2 ^ (placesOf units den + 53) ∧
      (placesOf units den = 0 ∨ den * 2 ^ (placesOf units den + 52) ≤ units) := by
  unfold placesOf
  refine ⟨?_, ?_⟩
  · have hlt : units / den < 2 ^ (Nat.log2 (units / den) + 1) := Nat.lt_log2_self
    have hle : 2 ^ (Nat.log2 (units / den) + 1) ≤ 2 ^ (Nat.log2 (units / den) - 52 + 53) :=
      Nat.pow_le_pow_right (by decide) (by omega)
    rw [Nat.mul_comm]
    exact (Nat.div_lt_iff_lt_mul hd).1 (hlt.trans_le hle)
  · rcases Nat.eq_zero_or_pos (Nat.log2 (units / den) - 52) with h | h
    · exact .inl h
    · have hne : units / den ≠ 0 := by
        intro hz
        rw [hz] at h
        cases h
      rw [Nat.sub_add_cancel (by omega), Nat.mul_comm]
      exact .inr ((Nat.le_div_iff_mul_le hd).1 (Nat.log2_self_le hne))

theorem significandOf_bounds (hd : 0 < den) (units : Nat) :
    significandOf units den ≤ 2 ^ 53 ∧
      (placesOf units den = 0 ∨ 2 ^ 52 ≤ significandOf units den) := by
  obtain ⟨hlt, hge⟩ := placesOf_spec hd units
  have hcases := divNearest_cases units (den * 2 ^ placesOf units den)
  have hpos : 0 < den * 2 ^ placesOf units den := Nat.mul_pos hd (Nat.two_pow_pos _)
  have hquotient : units / (den * 2 ^ placesOf units den) < 2 ^ 53 := by
    rw [Nat.div_lt_iff_lt_mul hpos, Nat.mul_comm, mul_two_pow_add]
    exact hlt
  unfold significandOf
  refine ⟨by omega, hge.imp_right fun hge => ?_⟩
  have hquotient : 2 ^ 52 ≤ units / (den * 2 ^ placesOf units den) := by
    rw [Nat.le_div_iff_mul_le hpos, Nat.mul_comm, mul_two_pow_add]
    exact hge
  omega

theorem unitsOfBits_wordOf (hd : 0 < den) (units : Nat) :
    unitsOfBits (wordOf units den) = significandOf units den * 2 ^ placesOf units den :=
  let ⟨hle, hge⟩ := significandOf_bounds hd units
  unitsOfBits_eq hle hge

theorem unitsOfBits_wordOf_zero (hd : 0 < den) : unitsOfBits (wordOf 0 den) = 0 := by
  have hpos : 0 < den * 2 ^ placesOf 0 den := Nat.mul_pos hd (Nat.two_pow_pos _)
  have hzero : significandOf 0 den = 0 := by
    simp [significandOf, divNearest, hpos]
  rw [unitsOfBits_wordOf hd, hzero, Nat.zero_mul]

/-- No word stands for a magnitude that is nearer to the quotient, and if another magnitude is as
near, the word is even. -/
theorem wordOf_nearest (hd : 0 < den) (units word : Nat) :
    Nat.dist units (unitsOfBits (wordOf units den) * den) ≤
        Nat.dist units (unitsOfBits word * den) ∧
      (unitsOfBits word ≠ unitsOfBits (wordOf units den) →
        Nat.dist units (unitsOfBits (wordOf units den) * den) =
          Nat.dist units (unitsOfBits word * den) → Even (wordOf units den)) := by
  have hstep (k : Nat) : k * 2 ^ placesOf units den * den = k * (den * 2 ^ placesOf units den) := by
    rw [Nat.mul_assoc, Nat.mul_comm den]
  have hpos : 0 < den * 2 ^ placesOf units den := Nat.mul_pos hd (Nat.two_pow_pos _)
  rw [unitsOfBits_wordOf hd, hstep]
  rcases unitsOfBits_grid word (placesOf units den) with ⟨k, hk⟩ | ⟨hp, hlt⟩
  · rw [hk, hstep]
    obtain ⟨hle, heven⟩ := divNearest_nearest hpos units k
    refine ⟨hle, fun hne heq => ?_⟩
    have hs : Even (significandOf units den) :=
      heven (fun h => hne (congrArg (· * 2 ^ placesOf units den) h)) heq
    exact Even.add (Even.mul_left (by decide) _) hs
  · -- the quotient is in the binade of the grid, so the least multiple there is nearer
    have hge : 2 ^ 52 * (den * 2 ^ placesOf units den) ≤ units := by
      rw [Nat.mul_comm, mul_two_pow_add]
      exact (placesOf_spec hd units).2.resolve_left (Nat.ne_of_gt hp)
    have hlt : unitsOfBits word * den < 2 ^ 52 * (den * 2 ^ placesOf units den) := by
      rw [← hstep]
      exact Nat.mul_lt_mul_of_pos_right hlt hd
    have hnearer := (divNearest_nearest hpos units (2 ^ 52)).1
    have hdist : Nat.dist units (2 ^ 52 * (den * 2 ^ placesOf units den)) <
        Nat.dist units (unitsOfBits word * den) := by
      rw [Nat.dist_eq_sub_of_le_right hge, Nat.dist_eq_sub_of_le_right (by omega)]
      omega
    have hfar := hnearer.trans_lt hdist
    exact ⟨hfar.le, fun _ heq => absurd heq (Nat.ne_of_lt hfar)⟩

/-- A rounded quotient is at least an even number if the quotient is at least the middle between
this and the number before it. -/
theorem le_divNearest_iff (hd : 0 < den) (he : Even significand) (num : Nat) :
    significand ≤ divNearest num den ↔ (2 * significand - 1) * den ≤ 2 * num := by
  obtain ⟨hle, heven⟩ := divNearest_spec hd num
  have hsub : (2 * significand - 1) * den = 2 * (significand * den) - den := by
    rw [Nat.sub_mul, Nat.one_mul, Nat.mul_assoc]
  rw [hsub]
  constructor
  · intro h
    have hmul := Nat.mul_le_mul_right den h
    unfold Nat.dist at hle
    omega
  · intro h
    by_contra hn
    have hmul := Nat.mul_le_mul_right den (Nat.lt_of_not_le hn)
    rw [Nat.succ_mul] at hmul
    -- the quotient is in the middle, so it is not rounded to the odd one of the two
    have hhalf : 2 * Nat.dist num (divNearest num den * den) = den := by
      unfold Nat.dist at hle ⊢
      omega
    have hsucc : significand * den = (divNearest num den + 1) * den := by
      unfold Nat.dist at hhalf
      rw [Nat.succ_mul]
      omega
    rw [Nat.eq_of_mul_eq_mul_right hd hsucc, Nat.even_add_one] at he
    exact he (heven hhalf)

/-- The word is that of infinity or beyond from the middle between the largest double and the power
of two after it on. -/
theorem infinityBits_le_wordOf_iff (hd : 0 < den) (units : Nat) :
    infinityBits ≤ wordOf units den ↔ (2 ^ 54 - 1) * (den * 2 ^ 2044) ≤ units := by
  obtain ⟨hlt, hge⟩ := placesOf_spec hd units
  obtain ⟨hs, hs'⟩ := significandOf_bounds hd units
  have hi : infinityBits = 2047 * 2 ^ 52 := rfl
  have hpos : 0 < den * 2 ^ 2044 := by positivity
  rw [hi, wordOf]
  have hpow {p q : Nat} (h : p + 2044 ≤ q) : den * 2 ^ 2044 * 2 ^ p ≤ den * 2 ^ q := by
    rw [mul_two_pow_add, Nat.add_comm]
    exact Nat.mul_le_mul_left _ (Nat.pow_le_pow_right Nat.two_pos h)
  have hpow' {p q : Nat} (h : q ≤ p + 2044) : den * 2 ^ q ≤ den * 2 ^ 2044 * 2 ^ p := by
    rw [mul_two_pow_add, Nat.add_comm]
    exact Nat.mul_le_mul_left _ (Nat.pow_le_pow_right Nat.two_pos h)
  have hstep' : 0 < den * 2 ^ 2044 * 2 ^ 1 := by positivity
  have hround := le_divNearest_iff hstep' (show Even (2 ^ 53) by decide) units
  have hstep (h : placesOf units den = 2045) :
      den * 2 ^ 2044 * 2 ^ 1 = den * 2 ^ placesOf units den := by rw [h, mul_two_pow_add]
  generalize den * 2 ^ 2044 = step at hpos hpow hpow' hround hstep ⊢
  rcases Nat.lt_trichotomy (placesOf units den) 2045 with hp | hp | hp
  · have hle := hlt.trans_le (hpow' (p := 53) (by omega))
    exact iff_of_false (by omega) (by omega)
  · rw [hstep hp] at hround
    change 2 ^ 53 ≤ significandOf units den ↔ _ at hround
    rw [← hstep hp] at hround
    omega
  · have hword : 2046 * 2 ^ 52 + 2 ^ 52 ≤ placesOf units den * 2 ^ 52 + significandOf units den :=
      Nat.add_le_add (Nat.mul_le_mul_right _ hp) (hs'.resolve_left (by omega))
    have hle := (hpow (p := 54) (by omega)).trans (hge.resolve_left (by omega))
    exact iff_of_true hword (by omega)

/-! ## Doubles -/

theorem toBits_ofBits {word : Nat} (h : word ≤ infinityBits) :
    (Float.ofBits (UInt64.ofNat word)).toBits.toNat = word := by
  have hw : (UInt64.ofNat word).toNat = word :=
    UInt64.toNat_ofNat_of_lt' (Nat.lt_of_le_of_lt h (by decide))
  have hp : (Float.ofBits (UInt64.ofNat word)).toBits.toBitVec = pack Format.binary64
      (unpack Format.binary64 (UInt64.ofNat word).toBitVec) := rfl
  rw [pack_unpack] at hp
  split at hp
  · exact absurd (Float.toBits_inj.1 (UInt64.toBitVec_inj.1 hp)) (ofBits_ne_nan h)
  · rw [UInt64.toBitVec_inj.1 hp, hw]

theorem magnitudeBits_ofBits {word : Nat} (h : word ≤ infinityBits) :
    magnitudeBits (Float.ofBits (UInt64.ofNat word)) = word := by
  have hi : infinityBits = 2047 * 2 ^ 52 := rfl
  rw [magnitudeBits, toBits_ofBits h]
  exact Nat.mod_eq_of_lt (show word < 2 ^ 63 by omega)

theorem isNegative_ofBits {word : Nat} (h : word ≤ infinityBits) :
    isNegative (Float.ofBits (UInt64.ofNat word)) = false := by
  have hi : infinityBits = 2047 * 2 ^ 52 := rfl
  rw [isNegative, toBits_ofBits h]
  exact decide_eq_false (show ¬ 2 ^ 63 ≤ word by omega)

theorem magnitudeBits_nearest (num den : Nat) :
    magnitudeBits (nearest num den) = nearestBits num den :=
  magnitudeBits_ofBits (Nat.min_le_right _ _)

/-- The value of a finite double. -/
def exactValue (x : Float) : ℚ :=
  (if isNegative x then -(scaled x : ℚ) else scaled x) / 2 ^ 1074

/-- The finite double is nearest to a number: no other is nearer, and if one of another value is as
near, the significand of the double is even. -/
structure IsNearest (x : Float) (q : ℚ) : Prop where
  finite : isFinite x
  nearest (y : Float) : isFinite y → |exactValue x - q| ≤ |exactValue y - q|
  even (y : Float) : isFinite y → exactValue y ≠ exactValue x →
    |exactValue x - q| = |exactValue y - q| → Even (magnitudeBits x)

/-- The distance of a double from a quotient, in units of `2 ^ -1074` over the divisor. -/
def distance (num den : Nat) (x : Float) : Nat :=
  if isNegative x then num * unitsPerOne + scaled x * den
  else Nat.dist (num * unitsPerOne) (scaled x * den)

theorem unitsPerOne_eq : unitsPerOne = 2 ^ 1074 := by
  unfold unitsPerOne
  generalize 1074 = n
  rfl

theorem unitsPerOne_pos : 0 < unitsPerOne := by
  rw [unitsPerOne_eq]
  positivity

theorem cast_unitsPerOne : (unitsPerOne : ℚ) = 2 ^ 1074 := by
  rw [unitsPerOne_eq, Nat.cast_pow, Nat.cast_ofNat]

theorem cast_dist (a b : Nat) : (Nat.dist a b : ℚ) = |(b : ℚ) - a| := by
  rcases Nat.le_total a b with h | h
  · have hq : (0 : ℚ) ≤ b - a := sub_nonneg.2 (Nat.cast_le.2 h)
    rw [Nat.dist_eq_sub_of_le h, Nat.cast_sub h, abs_of_nonneg hq]
  · have hq : (b : ℚ) - a ≤ 0 := sub_nonpos.2 (Nat.cast_le.2 h)
    rw [Nat.dist_eq_sub_of_le_right h, Nat.cast_sub h, abs_of_nonpos hq, neg_sub]

theorem abs_exactValue_sub (hd : 0 < den) (num : Nat) (x : Float) :
    |exactValue x - num / den| = (distance num den x : ℚ) / (den * unitsPerOne) := by
  have hu : (0 : ℚ) < unitsPerOne := Nat.cast_pos.2 unitsPerOne_pos
  have hd : (0 : ℚ) < den := Nat.cast_pos.2 hd
  have hsub (s : ℚ) : |s / unitsPerOne - num / den| =
      |s * den - num * unitsPerOne| / (den * unitsPerOne) := by
    rw [div_sub_div _ _ hu.ne' hd.ne', abs_div, mul_comm (unitsPerOne : ℚ) den,
      mul_comm (unitsPerOne : ℚ) num, abs_of_pos (mul_pos hd hu)]
  unfold exactValue distance
  rw [← cast_unitsPerOne, hsub]
  generalize unitsPerOne = u
  by_cases hn : isNegative x
  · have hsum : -(scaled x : ℚ) * den - num * u =
        -((num * u + scaled x * den : Nat) : ℚ) := by
      push_cast
      ring
    rw [if_pos hn, if_pos hn, hsum, abs_neg, abs_of_nonneg (Nat.cast_nonneg _)]
  · rw [if_neg hn, if_neg hn, cast_dist, Nat.cast_mul, Nat.cast_mul]

theorem abs_exactValue_sub_le_iff (hd : 0 < den) (num : Nat) (x y : Float) :
    |exactValue x - num / den| ≤ |exactValue y - num / den| ↔
      distance num den x ≤ distance num den y := by
  have hpos : (0 : ℚ) < den * unitsPerOne :=
    mul_pos (Nat.cast_pos.2 hd) (Nat.cast_pos.2 unitsPerOne_pos)
  rw [abs_exactValue_sub hd, abs_exactValue_sub hd, div_le_div_iff_of_pos_right hpos, Nat.cast_le]

theorem dist_le_distance (num den : Nat) (x : Float) :
    Nat.dist (num * unitsPerOne) (scaled x * den) ≤ distance num den x := by
  unfold distance
  by_cases hn : isNegative x
  · rw [if_pos hn]
    unfold Nat.dist
    omega
  · rw [if_neg hn]

/-- Two doubles of one magnitude are as far from a number only if they have one value. -/
theorem exactValue_eq_of_scaled {x y : Float} (hd : 0 < den) (hx : isNegative x = false)
    (hs : scaled y = scaled x) (hz : num = 0 → scaled x = 0)
    (h : distance num den x = distance num den y) : exactValue y = exactValue x := by
  unfold exactValue
  rw [hx, hs]
  by_cases hy : isNegative y
  · rw [distance, distance, hx, hy, hs] at h
    have hzero : num * unitsPerOne = 0 ∨ scaled x * den = 0 := by
      change Nat.dist (num * unitsPerOne) (scaled x * den) =
        num * unitsPerOne + scaled x * den at h
      unfold Nat.dist at h
      omega
    have hscaled : scaled x = 0 := by
      rcases hzero with h | h
      · exact hz ((Nat.mul_eq_zero.1 h).resolve_right unitsPerOne_pos.ne')
      · exact (Nat.mul_eq_zero.1 h).resolve_right hd.ne'
    rw [hscaled, Nat.cast_zero, neg_zero, ite_self, ite_self]
  · rw [if_neg hy]
    rfl

/-! ## The nearest double of a quotient -/

theorem two_pow_sub {m n k : Nat} (h : k = m + n) : 2 ^ k - 2 ^ n = (2 ^ m - 1) * 2 ^ n := by
  rw [h, Nat.sub_mul, Nat.one_mul, Nat.pow_add]

theorem two_pow_split {m n k : Nat} (h : k = m + n) : 2 ^ k = 2 ^ m * 2 ^ n := by
  rw [h, Nat.pow_add]

/-- The quotient, in units, is beyond the words of finite doubles. -/
theorem infinityBits_le_wordOf_iff' (hd : 0 < den) (num : Nat) :
    infinityBits ≤ wordOf (num * unitsPerOne) den ↔ (2 ^ 1024 - 2 ^ 970) * den ≤ num := by
  have hsplit : (2 ^ 54 - 1) * (den * 2 ^ 2044) =
      (2 ^ 54 - 1) * 2 ^ 970 * den * unitsPerOne := by
    rw [two_pow_split (show 2044 = 970 + 1074 from rfl), unitsPerOne_eq]
    generalize 2 ^ 970 = m
    generalize 2 ^ 1074 = n
    ring
  rw [infinityBits_le_wordOf_iff hd, hsplit, two_pow_sub (show 1024 = 54 + 970 from rfl)]
  exact Nat.mul_le_mul_right_iff unitsPerOne_pos

theorem nearest_eq_infinity_iff (hd : 0 < den) (num : Nat) :
    nearest num den = infinity ↔ (2 ^ 1024 - 2 ^ 970) * den ≤ num := by
  have hbits : nearest num den = infinity ↔ nearestBits num den = infinityBits := by
    refine ⟨fun h => ?_, fun h => ?_⟩
    · rw [← magnitudeBits_nearest, h]
      exact magnitudeBits_ofBits (Nat.le_refl _)
    · rw [nearest, h, infinity]
  rw [hbits, nearestBits_eq, min_eq_right_iff, infinityBits_le_wordOf_iff' hd]

/-- The double nearest to a quotient below the middle between the largest double and the power of
two after it. -/
theorem isNearest_nearest (hd : 0 < den) (h : num < (2 ^ 1024 - 2 ^ 970) * den) :
    IsNearest (nearest num den) (num / den) := by
  have hlt : wordOf (num * unitsPerOne) den < infinityBits :=
    Nat.lt_of_not_le fun hle => Nat.not_le_of_lt h ((infinityBits_le_wordOf_iff' hd num).1 hle)
  have hword : magnitudeBits (nearest num den) = wordOf (num * unitsPerOne) den := by
    rw [magnitudeBits_nearest, nearestBits_eq, Nat.min_eq_left hlt.le]
  have hscaled : scaled (nearest num den) = unitsOfBits (wordOf (num * unitsPerOne) den) := by
    rw [scaled_eq, hword]
  have hsign : isNegative (nearest num den) = false := isNegative_ofBits (Nat.min_le_right _ _)
  have hdistance : distance num den (nearest num den) =
      Nat.dist (num * unitsPerOne) (unitsOfBits (wordOf (num * unitsPerOne) den) * den) := by
    rw [distance, hsign, hscaled]
    rfl
  have hnearest (y : Float) := wordOf_nearest hd (num * unitsPerOne) (magnitudeBits y)
  refine ⟨?_, fun y _ => ?_, fun y _ hne heq => ?_⟩
  · rw [isFinite, hword]
    exact decide_eq_true hlt
  · rw [abs_exactValue_sub_le_iff hd, hdistance]
    exact (hnearest y).1.trans (dist_le_distance num den y)
  · have heq : distance num den (nearest num den) = distance num den y :=
      Nat.le_antisymm ((abs_exactValue_sub_le_iff hd ..).1 heq.le)
        ((abs_exactValue_sub_le_iff hd ..).1 heq.ge)
    have hdist := Nat.le_antisymm (hnearest y).1
      ((dist_le_distance num den y).trans_eq (heq.symm.trans hdistance))
    rw [hword]
    refine (hnearest y).2 (fun hsame => hne ?_) hdist
    refine exactValue_eq_of_scaled hd hsign (hsame.trans hscaled.symm) (fun hz => ?_) heq
    rw [hscaled, hz, Nat.zero_mul, unitsOfBits_wordOf_zero hd]

end FormulaScript.Number
