import FormulaScript.Number.Tolerance
import FormulaScript.Proofs.Number.Nearest

/-!
# Doubles by sign and magnitude

Comparison and arithmetic are those of unpacked doubles, which have a sign, a significand and an
exponent. Here unpacked doubles are read off the words of the packed ones. The order of the numbers
is then that of their places on the integer line.
-/

namespace FormulaScript.Number

open Float.Model UnpackedFloat

/-- The sign of an unpacked double. -/
def signOf (negative : Bool) : Sign := if negative then .negative else .positive

/-- What the word of a sign and a magnitude stands for. A magnitude between zero and infinity is a
significand of at most 53 bits with its binary places, and one of fewer bits has no places. -/
inductive Unpacks (negative : Bool) : Nat → UnpackedFloat → Prop
  | zero : Unpacks negative 0 (.zero (signOf negative))
  | finite (hpos : 0 < significand) : significand < 2 ^ 53 → places = 0 ∨ 2 ^ 52 ≤ significand →
      places < 2046 → Unpacks negative (places * 2 ^ 52 + significand)
        (.finite (signOf negative) significand ((places : Int) - 1074) hpos)
  | infinity : Unpacks negative infinityBits (.infinity (signOf negative))
  | notANumber : infinityBits < magnitude → Unpacks negative magnitude .notANumber

theorem toNat_unpackMantissa (word : BitVec 64) :
    (@unpackMantissa Format.binary64 word).toNat = word.toNat % 2 ^ 52 := by
  simp [unpackMantissa]

theorem toNat_unpackExponent (word : BitVec 64) :
    (@unpackExponent Format.binary64 word).toNat = word.toNat / 2 ^ 52 % 2 ^ 11 := by
  simp [unpackExponent, Nat.shiftRight_eq_div_pow]

theorem unpackSign_eq (word : BitVec 64) :
    Sign.ofBitVec (@unpackSign Format.binary64 word) = signOf (decide (2 ^ 63 ≤ word.toNat)) := by
  have hlt := word.isLt
  have hs : (@unpackSign Format.binary64 word).toNat = word.toNat / 2 ^ 63 % 2 := by
    simp [unpackSign, Nat.shiftRight_eq_div_pow]
  unfold Sign.ofBitVec signOf
  by_cases h : 2 ^ 63 ≤ word.toNat
  · have hne : @unpackSign Format.binary64 word ≠ 0#1 := by
      intro h0
      have hzero : word.toNat / 2 ^ 63 % 2 = 0 := by rw [← hs, h0]; rfl
      omega
    rw [if_neg hne, decide_eq_true h, if_pos rfl]
  · have heq : @unpackSign Format.binary64 word = 0#1 := by
      refine BitVec.eq_of_toNat_eq (hs.trans ?_)
      show word.toNat / 2 ^ 63 % 2 = 0
      omega
    rw [if_pos heq, decide_eq_false h]
    rfl

theorem toNat_hidden_append (mantissa : BitVec 52) :
    (1#1 ++ mantissa).toNat = 2 ^ 52 + mantissa.toNat := by
  have h := Nat.two_pow_add_eq_or_of_lt mantissa.isLt 1
  rw [Nat.mul_one] at h
  rw [BitVec.toNat_append, h]
  rfl

theorem Unpacks.of_eq {negative : Bool} {significand magnitude : Nat} {exponent : Int}
    {hpos : 0 < significand} (places : Nat) (hs : significand < 2 ^ 53)
    (hp : places = 0 ∨ 2 ^ 52 ≤ significand) (hb : places < 2046)
    (hm : magnitude = places * 2 ^ 52 + significand) (he : exponent = (places : Int) - 1074) :
    Unpacks negative magnitude (.finite (signOf negative) significand exponent hpos) := by
  subst hm he
  exact .finite hpos hs hp hb

/-- The word of a double unpacks by its sign and its magnitude. -/
theorem unpacks (x : Float) : Unpacks (isNegative x) (magnitudeBits x) x.toModel.unpack := by
  have hlt := x.toBits.toNat_lt
  have hm := toNat_unpackMantissa x.toBits.toBitVec
  have he := toNat_unpackExponent x.toBits.toBitVec
  have hs : Sign.ofBitVec (@unpackSign Format.binary64 x.toBits.toBitVec) = signOf (isNegative x) :=
    unpackSign_eq _
  have hmag : magnitudeBits x = x.toBits.toNat % 2 ^ 63 := rfl
  have hi : infinityBits = 2047 * 2 ^ 52 := rfl
  change Unpacks _ _ (UnpackedFloat.unpack Format.binary64 x.toBits.toBitVec)
  rw [UInt64.toNat_toBitVec] at hm he
  unfold UnpackedFloat.unpack
  dsimp only
  rw [hs]
  split
  · next h =>
    have he : x.toBits.toNat / 2 ^ 52 % 2 ^ 11 = 2047 := by rw [← he, h]; rfl
    split
    · next h0 =>
      have hm : x.toBits.toNat % 2 ^ 52 = 0 := by rw [← hm, h0]; rfl
      have heq : magnitudeBits x = infinityBits := by omega
      rw [heq]
      exact .infinity
    · next h0 =>
      have hm : x.toBits.toNat % 2 ^ 52 ≠ 0 := by
        rw [← hm]
        exact fun h => h0 (BitVec.eq_of_toNat_eq h)
      exact .notANumber (by omega)
  · next h =>
    have he' : x.toBits.toNat / 2 ^ 52 % 2 ^ 11 ≠ 2047 := by
      rw [← he]
      exact fun h' => h (BitVec.eq_of_toNat_eq h')
    split
    · next hz =>
      have hez : x.toBits.toNat / 2 ^ 52 % 2 ^ 11 = 0 := by rw [← he, hz]; rfl
      split
      · next h0 =>
        have hm : x.toBits.toNat % 2 ^ 52 = 0 := by rw [← hm, h0]; rfl
        have heq : magnitudeBits x = 0 := by omega
        rw [heq]
        exact .zero
      · next h0 =>
        refine .of_eq 0 (by omega) (.inl rfl) (by omega) (by omega) ?_
        rw [he, hez]
        rfl
    · next hz =>
      have hez : x.toBits.toNat / 2 ^ 52 % 2 ^ 11 ≠ 0 := by
        rw [← he]
        exact fun h' => hz (BitVec.eq_of_toNat_eq h')
      have hsig := toNat_hidden_append (@unpackMantissa Format.binary64 x.toBits.toBitVec)
      refine .of_eq (x.toBits.toNat / 2 ^ 52 % 2 ^ 11 - 1) (by omega) (.inr (by omega)) (by omega)
        (by omega) ?_
      rw [he]
      change _ - ((1023 : Int) + 52) = _
      omega

/-! ## Order -/

theorem compare_neg (a b : Int) : compare (-a) (-b) = (compare a b).swap := by
  rcases Int.lt_trichotomy a b with h | rfl | h
  · rw [compare_lt_iff_lt.2 h, compare_gt_iff_gt.2 (Int.neg_lt_neg h)]
    rfl
  · rw [compare_eq_iff_eq.2 rfl, compare_eq_iff_eq.2 rfl]
    rfl
  · rw [compare_gt_iff_gt.2 h, compare_lt_iff_lt.2 (Int.neg_lt_neg h)]
    rfl

/-- Magnitudes are in the order of their places, and with the same places in that of their
significands. -/
theorem compare_magnitudes {p p' s s' : Nat} (hs : s < 2 ^ 53) (hs' : s' < 2 ^ 53)
    (hp : p = 0 ∨ 2 ^ 52 ≤ s) (hp' : p' = 0 ∨ 2 ^ 52 ≤ s') :
    (compare ((p : Int) - 1074) ((p' : Int) - 1074)).then (compare s s') =
      compare ((p * 2 ^ 52 + s : Nat) : Int) (p' * 2 ^ 52 + s' : Nat) := by
  rcases Nat.lt_trichotomy p p' with h | rfl | h
  · rw [compare_lt_iff_lt.2 (show (p : Int) - 1074 < p' - 1074 by omega),
      compare_lt_iff_lt.2 (show ((p * 2 ^ 52 + s : Nat) : Int) < (p' * 2 ^ 52 + s' : Nat) by omega)]
    rfl
  · rw [compare_eq_iff_eq.2 (rfl : (p : Int) - 1074 = p - 1074)]
    change compare s s' = _
    rcases Nat.lt_trichotomy s s' with h | rfl | h
    · rw [compare_lt_iff_lt.2 h, compare_lt_iff_lt.2 (by omega)]
    · rw [compare_eq_iff_eq.2 rfl, compare_eq_iff_eq.2 rfl]
    · rw [compare_gt_iff_gt.2 h, compare_gt_iff_gt.2 (by omega)]
  · rw [compare_gt_iff_gt.2 (show (p' : Int) - 1074 < p - 1074 by omega),
      compare_gt_iff_gt.2 (show ((p' * 2 ^ 52 + s' : Nat) : Int) < (p * 2 ^ 52 + s : Nat) by omega)]
    rfl

/-- The place of a magnitude with a sign on the integer line. -/
def place (negative : Bool) (magnitude : Nat) : Int := if negative then -magnitude else magnitude

@[simp] theorem place_false (magnitude : Nat) : place false magnitude = magnitude := rfl

@[simp] theorem place_true (magnitude : Nat) : place true magnitude = -magnitude := rfl

@[simp] theorem place_zero (negative : Bool) : place negative 0 = 0 := by
  cases negative <;> rfl

theorem place_bounds (negative : Bool) (magnitude : Nat) :
    -(magnitude : Int) ≤ place negative magnitude ∧ place negative magnitude ≤ magnitude := by
  cases negative <;> simp

theorem orderedBits_eq (x : Float) : orderedBits x = place (isNegative x) (magnitudeBits x) := rfl

variable {negative negative' : Bool} {magnitude magnitude' : Nat} {u u' : UnpackedFloat}

/-- Numbers are in the order of their places. -/
theorem Unpacks.compare_eq (h : Unpacks negative magnitude u) (h' : Unpacks negative' magnitude' u')
    (hu : u ≠ .notANumber) (hu' : u' ≠ .notANumber) :
    u.compare u' = some (compare (place negative magnitude) (place negative' magnitude')) := by
  have hi : infinityBits = 2047 * 2 ^ 52 := rfl
  have lt {a b : Int} (h : a < b) : some Ordering.lt = some (compare a b) := by
    rw [compare_lt_iff_lt.2 h]
  have gt {a b : Int} (h : b < a) : some Ordering.gt = some (compare a b) := by
    rw [compare_gt_iff_gt.2 h]
  have hle := place_bounds negative magnitude
  have hle' := place_bounds negative' magnitude'
  cases h with
  | notANumber => exact absurd rfl hu
  | zero =>
    rw [place_zero]
    cases h' with
    | notANumber => exact absurd rfl hu'
    | zero =>
      rw [place_zero]
      rfl
    | finite | infinity =>
      cases negative'
      · exact lt (by rw [place_false]; omega)
      · exact gt (by rw [place_true]; omega)
  | finite hpos hs hp hb =>
    cases h' with
    | notANumber => exact absurd rfl hu'
    | zero =>
      rw [place_zero]
      cases negative
      · exact gt (by rw [place_false]; omega)
      · exact lt (by rw [place_true]; omega)
    | infinity =>
      cases negative'
      · exact lt (by rw [place_false]; omega)
      · exact gt (by rw [place_true]; omega)
    | finite hpos' hs' hp' hb' =>
      cases negative <;> cases negative'
      · rw [place_false, place_false]
        exact congrArg some (compare_magnitudes hs hs' hp hp')
      · exact gt (by rw [place_true, place_false]; omega)
      · exact lt (by rw [place_true, place_false]; omega)
      · rw [place_true, place_true, compare_neg, ← compare_magnitudes hs hs' hp hp']
        rfl
  | infinity =>
    cases h' with
    | notANumber => exact absurd rfl hu'
    | infinity => cases negative <;> cases negative' <;> rfl
    | zero | finite =>
      cases negative
      · exact gt (by rw [place_false]; omega)
      · exact lt (by rw [place_true]; omega)

theorem isNaN_eq_false_iff {x : Float} : x.isNaN = false ↔ x.toModel.unpack ≠ .notANumber := by
  change x.toModel.unpack.isNaN = false ↔ _
  cases x.toModel.unpack <;> simp [UnpackedFloat.isNaN]

theorem Unpacks.ne_notANumber (h : Unpacks negative magnitude u) (hm : magnitude ≤ infinityBits) :
    u ≠ .notANumber := by
  cases h with
  | notANumber hgt => exact fun _ => Nat.not_lt.2 hm hgt
  | _ => exact UnpackedFloat.noConfusion

variable {x y : Float}

theorem isNaN_of_isFinite (hx : isFinite x) : x.isNaN = false :=
  isNaN_eq_false_iff.2 ((unpacks x).ne_notANumber (of_decide_eq_true hx).le)

/-- Of two doubles that are no NaNs the one at the lower place is the smaller. -/
theorem lt_iff_orderedBits_lt (hx : x.isNaN = false) (hy : y.isNaN = false) :
    x < y ↔ orderedBits x < orderedBits y := by
  have hcompare := (unpacks x).compare_eq (unpacks y) (isNaN_eq_false_iff.1 hx)
    (isNaN_eq_false_iff.1 hy)
  have hlt : x < y ↔ (x.toModel.unpack.compare y.toModel.unpack == some .lt) = true :=
    decide_eq_true_iff
  rw [hlt, hcompare, orderedBits_eq, orderedBits_eq]
  simp [compare_lt_iff_lt]

end FormulaScript.Number
