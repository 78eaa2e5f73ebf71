import FormulaScript.Proofs.Number.Magnitudes
import FormulaScript.Proofs.Number.Unpacked

/-!
# Sums of doubles

The sum of two finite doubles is the exact sum of their magnitudes with their signs, rounded to the
nearest magnitude. The significand is shifted right bit by bit, and of the bits that leave it one
is kept together with whether any other was set: this is enough to know on which side of the middle
the rest lies.
-/

namespace FormulaScript.Number

open Float.Model UnpackedFloat

/-! ## Significands that lose bits -/

/-- A significand with what it keeps of the bits that it has lost in a division. -/
structure Residue (em : ExtendedMantissa) (num den : Nat) : Prop where
  mantissa : em.mantissa = num / den
  roundBit : em.roundBit = decide (den ≤ 2 * (num % den))
  stickyBit : em.stickyBit = decide (num % den ≠ 0 ∧ 2 * (num % den) ≠ den)

theorem residue_exact (num : Nat) : Residue (.ofMantissaAndAccuracy num .exact) num 1 := by
  constructor <;> simp [ExtendedMantissa.ofMantissaAndAccuracy, Nat.mod_one]

theorem Residue.shiftRightOne {em : ExtendedMantissa} (h : Residue em num den) (hd : 0 < den) :
    Residue em.shiftRightOne num (den * 2) := by
  have hlt := Nat.mod_lt num hd
  have hmod : num % (den * 2) = num % den + den * (num / den % 2) := Nat.mod_mul
  have hbit := Nat.mod_two_eq_zero_or_one (num / den)
  refine ⟨?_, ?_, ?_⟩
  · rw [ExtendedMantissa.shiftRightOne, h.mantissa, Nat.div_div_eq_div_mul]
  · rw [ExtendedMantissa.shiftRightOne, h.mantissa, hmod]
    rcases hbit with hb | hb <;> simp [hb] <;> omega
  · rw [ExtendedMantissa.shiftRightOne, h.roundBit, h.stickyBit, hmod, ← Bool.decide_or,
      decide_eq_decide]
    rcases hbit with hb | hb
    · rw [hb, Nat.mul_zero, Nat.add_zero]
      omega
    · rw [hb, Nat.mul_one]
      omega

theorem residue_shiftRight (num places : Nat) :
    Residue (ExtendedMantissa.ofMantissaAndAccuracy num .exact >>> places) num (2 ^ places) := by
  induction places with
  | zero => exact residue_exact num
  | succ places ih => exact ih.shiftRightOne (Nat.two_pow_pos _)

theorem Residue.roundedMantissa {em : ExtendedMantissa} (h : Residue em num den) (hd : 0 < den) :
    em.roundedMantissa = divNearest num den := by
  obtain ⟨mantissa, roundBit, stickyBit⟩ := em
  obtain ⟨rfl, hr, hs⟩ := h
  dsimp only at hr hs
  have hlt := Nat.mod_lt num hd
  unfold divNearest
  dsimp only
  cases roundBit <;> cases stickyBit <;> simp at hr hs
  · rw [if_pos hr]
    rfl
  · rw [if_pos hr]
    rfl
  · rw [if_neg (by omega), if_neg (by omega)]
    rfl
  · rw [if_neg (by omega), if_pos (by omega)]
    rfl

/-! ## Packing -/

/-- The sign bit of a word. -/
def signBit (negative : Bool) : Nat := if negative then 2 ^ 63 else 0

theorem toNat_packComponents (negative : Bool) (exponent : BitVec 11) (mantissa : BitVec 52) :
    (packComponents Format.binary64 (signOf negative) exponent mantissa).toNat =
      signBit negative + (exponent.toNat * 2 ^ 52 + mantissa.toNat) := by
  have hsign : (signOf negative).toBitVec.toNat * 2 ^ 63 = signBit negative := by
    cases negative <;> rfl
  change ((signOf negative).toBitVec ++ exponent ++ mantissa).toNat = _
  rw [BitVec.toNat_append, BitVec.toNat_append, ← Nat.shiftLeft_add_eq_or_of_lt exponent.isLt,
    ← Nat.shiftLeft_add_eq_or_of_lt mantissa.isLt, Nat.shiftLeft_eq, Nat.shiftLeft_eq, ← hsign]
  ring

theorem toNat_packedInfinity (negative : Bool) :
    (packedInfinity Format.binary64 (signOf negative)).toNat = signBit negative + infinityBits :=
  toNat_packComponents negative (-1#11) 0

theorem toNat_pack_zero (negative : Bool) :
    (pack Format.binary64 (.zero (signOf negative))).toNat = signBit negative :=
  toNat_packComponents negative 0 0

/-- A significand and its places are packed into their word, and into that of infinity from there
on. -/
theorem toNat_pack_finite {s places : Nat} (negative : Bool) (hpos : 0 < s) (hs : s < 2 ^ 53)
    (hp : places = 0 ∨ 2 ^ 52 ≤ s) :
    (pack Format.binary64 (.finite (signOf negative) s ((places : Int) - 1074) hpos)).toNat =
      signBit negative + min (places * 2 ^ 52 + s) infinityBits := by
  have hi : infinityBits = 2047 * 2 ^ 52 := rfl
  have hbiased : ((places : Int) - 1074 + (Format.binary64.exponentBias : Nat) +
      (Format.binary64.mantissaBitsWithoutImplicit : Nat)).toNat = places + 1 := by
    change ((places : Int) - 1074 + 1023 + 52).toNat = _
    omega
  unfold UnpackedFloat.pack
  dsimp only
  rw [hbiased]
  split
  · next h =>
    change 2048 ≤ _ at h
    rw [toNat_packedInfinity, Nat.min_eq_right (by omega)]
  · next h =>
    change ¬ 2048 ≤ _ at h
    have hlog : s.log2 + 1 = 53 ↔ 2 ^ 52 ≤ s := by
      rw [Nat.add_left_inj (n := 1) (m := s.log2) (k := 52), Nat.log2_eq_iff hpos.ne']
      exact and_iff_left hs
    change (if s.log2 + 1 = 53 then _ else _ : BitVec 64).toNat = _
    split
    · next h53 =>
      have hge := hlog.1 h53
      rw [toNat_packComponents, BitVec.toNat_ofNat, BitVec.toNat_ofNat]
      change _ + ((places + 1) % 2 ^ 11 * 2 ^ 52 + s % 2 ^ 52) = _
      omega
    · next h53 =>
      have hlt := mt hlog.2 h53
      rw [toNat_packComponents, BitVec.toNat_ofNat]
      change _ + (0 * 2 ^ 52 + s % 2 ^ 52) = _
      omega

/-! ## Rounding -/

theorem log2_mul_two_pow (hpos : 0 < significand) (places : Nat) :
    (significand * 2 ^ places).log2 = significand.log2 + places := by
  have hne : significand * 2 ^ places ≠ 0 := (Nat.mul_pos hpos (Nat.two_pow_pos _)).ne'
  rw [Nat.log2_eq_iff hne, Nat.pow_add, Nat.add_right_comm, Nat.pow_add]
  exact ⟨Nat.mul_le_mul_right _ (Nat.log2_self_le hpos.ne'),
    Nat.mul_lt_mul_of_pos_right Nat.lt_log2_self (Nat.two_pow_pos _)⟩

/-- The exponent that a significand is rounded to is that of the places of its magnitude. -/
theorem targetExponent_eq (hpos : 0 < significand) (places : Nat) :
    Format.binary64.targetExponent (totalExponent significand ((places : Int) - 1074)) =
      (placesOf (significand * 2 ^ places) 1 : Int) - 1074 := by
  change max ((significand.log2 : Int) + 1 + (places - 1074) - 53) (-1074) = _
  rw [placesOf, Nat.div_one, log2_mul_two_pow hpos]
  omega

/-- A rounded significand that has carried is halved, and no other is shifted. -/
theorem shiftToTargetExponent_rounded (hs : significand ≤ 2 ^ 53) (places : Nat) :
    shiftToTargetExponent Format.binary64 significand ((places : Int) - 1074) .exact =
      if significand = 2 ^ 53 then (⟨2 ^ 52, false, false⟩, ((places + 1 : Nat) : Int) - 1074)
      else (⟨significand, false, false⟩, (places : Int) - 1074) := by
  have hshift (shift : Nat) (h : (Format.binary64.targetExponent (totalExponent significand
      ((places : Int) - 1074)) - ((places : Int) - 1074)).toNat = shift) :
      shiftToTargetExponent Format.binary64 significand ((places : Int) - 1074) .exact =
        (ExtendedMantissa.ofMantissaAndAccuracy significand .exact >>> shift,
          (places : Int) - 1074 + shift) := by
    rw [← h]
    rfl
  change ∀ shift : Nat, (max ((significand.log2 : Int) + 1 + ((places : Int) - 1074) - 53)
    (-1074) - ((places : Int) - 1074)).toNat = shift → _ at hshift
  split
  · next h =>
    subst h
    rw [hshift 1 (by rw [Nat.log2_two_pow]; omega)]
    exact Prod.ext rfl (by omega)
  · next h =>
    have hlog : significand.log2 < 53 := by
      rcases Nat.eq_zero_or_pos significand with rfl | hpos
      · decide
      · exact (Nat.log2_lt hpos.ne').2 (by omega)
    rw [hshift 0 (by omega)]
    exact Prod.ext rfl (by omega)

/-- A significand with no place below that of its magnitude is shifted, rounded and carried. -/
theorem toNat_pack_roundWithAccuracy (negative : Bool) (hpos : 0 < significand)
    (hle : places ≤ placesOf (significand * 2 ^ places) 1) :
    (pack Format.binary64 (roundWithAccuracy Format.binary64 (signOf negative) significand
      ((places : Int) - 1074) .exact)).toNat =
      signBit negative + min (wordOf (significand * 2 ^ places) 1) infinityBits := by
  have hrounded : (ExtendedMantissa.ofMantissaAndAccuracy significand .exact >>>
      (placesOf (significand * 2 ^ places) 1 - places)).roundedMantissa =
        significandOf (significand * 2 ^ places) 1 := by
    rw [(residue_shiftRight _ _).roundedMantissa (Nat.two_pow_pos _), significandOf, Nat.one_mul,
      two_pow_split (Nat.sub_add_cancel hle).symm, divNearest_mul_right (Nat.two_pow_pos _)]
  have hfirst : shiftToTargetExponent Format.binary64 significand ((places : Int) - 1074) .exact =
      (ExtendedMantissa.ofMantissaAndAccuracy significand .exact >>>
        (placesOf (significand * 2 ^ places) 1 - places),
        (placesOf (significand * 2 ^ places) 1 : Int) - 1074) := by
    rw [shiftToTargetExponent, targetExponent_eq hpos, shiftToExponent]
    rw [show ((placesOf (significand * 2 ^ places) 1 : Int) - 1074 - (places - 1074)).toNat =
      placesOf (significand * 2 ^ places) 1 - places by omega]
    exact Prod.ext rfl (by omega)
  obtain ⟨hs, hp⟩ := significandOf_bounds Nat.one_pos (significand * 2 ^ places)
  rw [roundWithAccuracy, hfirst]
  dsimp only
  rw [hrounded, wordOf]
  generalize placesOf (significand * 2 ^ places) 1 = p at hp ⊢
  generalize significandOf (significand * 2 ^ places) 1 = s at hs hp ⊢
  rw [shiftToTargetExponent_rounded hs]
  by_cases hcarry : s = 2 ^ 53
  · simp only [if_pos hcarry]
    rw [dif_neg (by decide), toNat_pack_finite negative _ (by decide) (.inr (Nat.le_refl _)),
      hcarry, show (p + 1) * 2 ^ 52 + 2 ^ 52 = p * 2 ^ 52 + 2 ^ 53 by omega]
  · simp only [if_neg hcarry]
    split
    · next hzero =>
      rw [toNat_pack_zero, hzero, hp.resolve_right (by omega)]
      rfl
    · next hpos => exact toNat_pack_finite negative (Nat.pos_of_ne_zero hpos) (by omega) hp

/-- A significand in its own place is rounded to the nearest magnitude. -/
theorem toNat_pack_round (negative : Bool) (hpos : 0 < significand) (places : Nat) :
    (pack Format.binary64
      (round Format.binary64 (signOf negative) significand ((places : Int) - 1074))).toNat =
      signBit negative + min (wordOf (significand * 2 ^ places) 1) infinityBits := by
  rw [UnpackedFloat.round, targetExponent_eq hpos, decreaseExponent]
  dsimp only
  generalize htarget : placesOf (significand * 2 ^ places) 1 = target
  rcases Nat.le_total places target with hle | hge
  · rw [show ((places : Int) - 1074 - ((target : Int) - 1074)).toNat = 0 by omega,
      Nat.shiftLeft_zero, Nat.cast_zero, sub_zero]
    exact toNat_pack_roundWithAccuracy negative hpos (htarget.symm ▸ hle)
  · have heq : significand * 2 ^ (places - target) * 2 ^ target = significand * 2 ^ places := by
      rw [Nat.mul_assoc, ← Nat.pow_add, Nat.sub_add_cancel hge]
    rw [show ((places : Int) - 1074 - ((target : Int) - 1074)).toNat = places - target by omega,
      Nat.shiftLeft_eq,
      show (places : Int) - 1074 - (places - target : Nat) = target - 1074 by omega, ← heq]
    refine toNat_pack_roundWithAccuracy negative (Nat.mul_pos hpos (Nat.two_pow_pos _)) ?_
    rw [heq, htarget]

/-! ## Sums -/

theorem place_mul (negative : Bool) (a b : Nat) :
    place negative (a * b) = place negative a * b := by
  cases negative <;> simp

theorem natAbs_place (negative : Bool) (magnitude : Nat) :
    (place negative magnitude).natAbs = magnitude := by
  cases negative <;> simp

theorem place_neg_iff (negative : Bool) (magnitude : Nat) :
    place negative magnitude < 0 ↔ negative = true ∧ magnitude ≠ 0 := by
  cases negative <;> simp
  omega

theorem apply_signOf (negative : Bool) (magnitude : Nat) :
    (signOf negative).apply magnitude = place negative magnitude := by
  cases negative <;> rfl

theorem decreaseExponent_eq (significand : Nat) {places target : Nat} (h : target ≤ places) :
    (decreaseExponent significand ((places : Int) - 1074) ((target : Int) - 1074)).1 =
      significand * 2 ^ (places - target) := by
  change significand <<< _ = _
  rw [Nat.shiftLeft_eq]
  congr 2
  omega

theorem place_split (negative : Bool) (significand : Nat) {places target : Nat}
    (h : target ≤ places) : place negative (significand * 2 ^ places) =
      place negative (significand * 2 ^ (places - target)) * 2 ^ target := by
  rw [two_pow_split (Nat.sub_add_cancel h).symm, ← Nat.mul_assoc, place_mul]
  norm_cast

/-- Finite doubles are added as multiples of the lower of their two places. -/
theorem add_finite (negative negative' : Bool) {s s' : Nat} (p p' : Nat) (hpos : 0 < s)
    (hpos' : 0 < s') :
    add Format.binary64 (.finite (signOf negative) s ((p : Int) - 1074) hpos)
      (.finite (signOf negative') s' ((p' : Int) - 1074) hpos') =
      UnpackedFloat.normalize Format.binary64
        (place negative (s * 2 ^ (p - min p p')) + place negative' (s' * 2 ^ (p' - min p p')))
        ((min p p' : Nat) - 1074) .positive := by
  have hmin : min ((p : Int) - 1074) ((p' : Int) - 1074) = (min p p' : Nat) - 1074 := by omega
  rw [← apply_signOf, ← apply_signOf, ← decreaseExponent_eq s (Nat.min_le_left p p'),
    ← decreaseExponent_eq s' (Nat.min_le_right p p'), ← hmin]
  rfl

/-- What a sum of places is packed into. -/
def PacksSum (sum : Int) (u : UnpackedFloat) : Prop :=
  ∃ negative, (pack Format.binary64 u).toNat =
    signBit negative + min (wordOf sum.natAbs 1) infinityBits ∧
    (sum ≠ 0 → negative = decide (sum < 0))

theorem packsSum_normalize (sum : Int) (places : Nat) :
    PacksSum (sum * 2 ^ places)
      (UnpackedFloat.normalize Format.binary64 sum ((places : Int) - 1074) .positive) := by
  have hpow : (0 : Int) < 2 ^ places := by positivity
  have habs : (sum * 2 ^ places).natAbs = sum.natAbs * 2 ^ places := by
    rw [Int.natAbs_mul, Int.natAbs_pow]
    rfl
  unfold UnpackedFloat.normalize PacksSum
  rw [habs]
  rcases Int.lt_trichotomy sum 0 with h | rfl | h
  · rw [compare_lt_iff_lt.2 h]
    refine ⟨true, ?_, fun _ => (decide_eq_true (Int.mul_neg_of_neg_of_pos h hpow)).symm⟩
    have hpack := toNat_pack_round true (show 0 < sum.natAbs by omega) places
    rwa [show sum.natAbs = (-sum).toNat by omega] at hpack ⊢
  · rw [compare_eq_iff_eq.2 rfl, Int.natAbs_zero, Nat.zero_mul]
    exact ⟨false, toNat_pack_zero false, fun h => absurd (Int.zero_mul _) h⟩
  · rw [compare_gt_iff_gt.2 h]
    refine ⟨false, ?_, fun _ => (decide_eq_false (Int.mul_pos h hpow).not_gt).symm⟩
    have hpack := toNat_pack_round false (show 0 < sum.natAbs by omega) places
    rwa [show sum.natAbs = sum.toNat by omega] at hpack ⊢

variable {negative negative' : Bool} {magnitude magnitude' : Nat} {u u' : UnpackedFloat}

theorem Unpacks.toNat_pack (h : Unpacks negative magnitude u) (hu : u ≠ .notANumber) :
    (pack Format.binary64 u).toNat = signBit negative + magnitude := by
  have hi : infinityBits = 2047 * 2 ^ 52 := rfl
  cases h with
  | zero => exact toNat_pack_zero negative
  | finite hpos hs hp hb =>
    rw [toNat_pack_finite negative hpos hs hp, Nat.min_eq_left (by omega)]
  | infinity => exact toNat_packedInfinity negative
  | notANumber => exact absurd rfl hu

theorem Unpacks.packsSum (h : Unpacks negative magnitude u) (hm : magnitude < infinityBits) :
    PacksSum (place negative (unitsOfBits magnitude)) u := by
  refine ⟨negative, ?_, fun hne => ?_⟩
  · rw [h.toNat_pack (h.ne_notANumber hm.le), natAbs_place, wordOf_unitsOfBits,
      Nat.min_eq_left hm.le]
  · have hunits : unitsOfBits magnitude ≠ 0 := fun h => hne (h ▸ place_zero negative)
    rw [Bool.eq_iff_iff, decide_eq_true_iff, place_neg_iff, and_iff_left hunits]

/-- The sum of two finite doubles is the rounded sum of their places. -/
theorem Unpacks.packsSum_add (h : Unpacks negative magnitude u)
    (h' : Unpacks negative' magnitude' u') (hm : magnitude < infinityBits)
    (hm' : magnitude' < infinityBits) :
    PacksSum (place negative (unitsOfBits magnitude) + place negative' (unitsOfBits magnitude'))
      (add Format.binary64 u u') := by
  cases h with
  | infinity => exact absurd hm (Nat.lt_irrefl _)
  | notANumber hgt => exact absurd hm hgt.not_gt
  | zero =>
    rw [unitsOfBits_zero, place_zero, Int.zero_add]
    cases h' with
    | infinity => exact absurd hm' (Nat.lt_irrefl _)
    | notANumber hgt => exact absurd hm' hgt.not_gt
    | finite hpos' hs' hp' hb' => exact (Unpacks.finite hpos' hs' hp' hb').packsSum hm'
    | zero =>
      rw [unitsOfBits_zero, place_zero]
      have hzero (negative : Bool) : PacksSum 0 (.zero (signOf negative)) :=
        ⟨negative, toNat_pack_zero negative, fun h => absurd rfl h⟩
      cases negative <;> cases negative'
      exacts [hzero false, hzero false, hzero false, hzero true]
  | finite hpos hs hp hb =>
    cases h' with
    | infinity => exact absurd hm' (Nat.lt_irrefl _)
    | notANumber hgt => exact absurd hm' hgt.not_gt
    | zero =>
      rw [unitsOfBits_zero, place_zero, Int.add_zero]
      exact (Unpacks.finite hpos hs hp hb).packsSum hm
    | finite hpos' hs' hp' hb' =>
      rename_i s p s' p'
      rw [unitsOfBits_eq hs.le hp, unitsOfBits_eq hs'.le hp']
      rw [place_split negative s (Nat.min_le_left p p'),
        place_split negative' s' (Nat.min_le_right p p'), ← Int.add_mul, add_finite]
      exact packsSum_normalize _ _

theorem Unpacks.neg (h : Unpacks negative magnitude u) : Unpacks (!negative) magnitude u.neg := by
  have hsign (negative : Bool) : -signOf negative = signOf (!negative) := by cases negative <;> rfl
  cases h with
  | zero =>
    rw [UnpackedFloat.neg, hsign]
    exact .zero
  | finite hpos hs hp hb =>
    rw [UnpackedFloat.neg, hsign]
    exact .finite hpos hs hp hb
  | infinity =>
    rw [UnpackedFloat.neg, hsign]
    exact .infinity
  | notANumber hgt => exact .notANumber hgt

/-- A difference is the sum with the negated operand. -/
theorem sub_eq_add_neg (spec : Format) (u u' : UnpackedFloat) :
    sub spec u u' = add spec u u'.neg := by
  have hneg (s : Sign) (n : Int) : (-s).apply n = -s.apply n := by
    cases s
    · exact (Int.neg_neg n).symm
    · rfl
  cases u <;> cases u'
  case finite.finite =>
    unfold UnpackedFloat.sub UnpackedFloat.add UnpackedFloat.neg
    dsimp only
    rw [hneg, Int.sub_eq_add_neg]
  all_goals rfl

/-! ## Doubles -/

/-- The value of a finite double in units of `2 ^ -1074`. -/
def signedUnits (x : Float) : Int := place (isNegative x) (scaled x)

/-- The double is a number of units, rounded: its magnitude is the nearest one, and its sign is that
of the number unless this is zero. -/
structure IsSum (units : Int) (x : Float) : Prop where
  magnitude : magnitudeBits x = min (wordOf units.natAbs 1) infinityBits
  sign : units ≠ 0 → isNegative x = decide (units < 0)

/-- The sign and the magnitude of a double that a word of them is for. -/
theorem word_eq {x : Float} {word : Nat} (hword : word ≤ infinityBits)
    (hx : x.toBits.toNat = signBit negative + word) :
    magnitudeBits x = word ∧ isNegative x = negative := by
  have hi : infinityBits = 2047 * 2 ^ 52 := rfl
  have hmag : magnitudeBits x = x.toBits.toNat % 2 ^ 63 := rfl
  have hneg : isNegative x = decide (2 ^ 63 ≤ x.toBits.toNat) := rfl
  rw [hmag, hneg, hx]
  cases negative
  · rw [show signBit false = 0 from rfl, decide_eq_false_iff_not]
    omega
  · rw [show signBit true = 2 ^ 63 from rfl, decide_eq_true_iff]
    omega

theorem PacksSum.isSum {x : Float} (h : PacksSum units u)
    (hx : x.toBits.toBitVec = pack Format.binary64 u) : IsSum units x := by
  obtain ⟨negative, hpack, hsign⟩ := h
  rw [← hx, UInt64.toNat_toBitVec] at hpack
  obtain ⟨hmag, hneg⟩ := word_eq (Nat.min_le_right _ _) hpack
  exact ⟨hmag, fun h => hneg.trans (hsign h)⟩

variable {x y : Float}

theorem isSum_add (hx : isFinite x) (hy : isFinite y) :
    IsSum (signedUnits x + signedUnits y) (x + y) :=
  ((unpacks x).packsSum_add (unpacks y) (of_decide_eq_true hx) (of_decide_eq_true hy)).isSum rfl

theorem isSum_sub (hx : isFinite x) (hy : isFinite y) :
    IsSum (signedUnits x - signedUnits y) (x - y) := by
  have hsub : (x - y).toBits.toBitVec =
      pack Format.binary64 (add Format.binary64 x.toModel.unpack y.toModel.unpack.neg) := by
    rw [← sub_eq_add_neg]
    rfl
  have hneg : -signedUnits y = place (!isNegative y) (scaled y) := by
    rw [signedUnits]
    cases isNegative y <;> simp
  rw [Int.sub_eq_add_neg, hneg]
  exact ((unpacks x).packsSum_add (unpacks y).neg (of_decide_eq_true hx)
    (of_decide_eq_true hy)).isSum hsub

/-- Negation keeps the magnitude of a double that is no NaN, and turns its sign over. -/
theorem neg_eq (hx : magnitudeBits x ≤ infinityBits) :
    magnitudeBits (-x) = magnitudeBits x ∧ isNegative (-x) = !isNegative x := by
  have hpack := (unpacks x).neg.toNat_pack ((unpacks x).neg.ne_notANumber hx)
  exact word_eq hx hpack

theorem withSign_eq (negative : Bool) (hx : magnitudeBits x ≤ infinityBits)
    (hsign : isNegative x = false) :
    magnitudeBits (withSign negative x) = magnitudeBits x ∧
      isNegative (withSign negative x) = negative := by
  cases negative
  · exact ⟨rfl, hsign⟩
  · have h := neg_eq hx
    rwa [hsign] at h

end FormulaScript.Number
