import FormulaScript.Number.Decimal
import FormulaScript.Proofs.Number.Nearest

/-!
# Decimals of a number of digits

A number is rounded to a number of significant digits on the grid of its power of ten. Numbers much
nearer to a decimal than its last digit are rounded to this decimal, also from below a power of ten,
where the grid is finer and the digits carry.
-/

namespace FormulaScript.Number

variable {num den places digits : Nat} {exponent : Int} {q : ℚ}

/-! ## Powers of ten -/

theorem ten_zpow_pos (exponent : Int) : (0 : ℚ) < 10 ^ exponent := zpow_pos (by norm_num) _

theorem ten_zpow_natCast (k : Nat) : (10 : ℚ) ^ (k : Int) = (10 ^ k : Nat) := by
  rw [zpow_natCast, Nat.cast_pow, Nat.cast_ofNat]

theorem ten_zpow_succ (exponent : Int) : (10 : ℚ) ^ (exponent + 1) = 10 ^ exponent * 10 :=
  zpow_add_one₀ (by norm_num) _

/-- A positive number is between two powers of ten only. -/
theorem exponent_le {exponent' : Int} (h : 10 ^ exponent ≤ q) (h' : q < 10 ^ (exponent' + 1)) :
    exponent ≤ exponent' := by
  have hlt := (zpow_lt_zpow_iff_right₀ (by norm_num)).1 (h.trans_lt h')
  omega

theorem length_decimalDigits (hn : 0 < num) :
    10 ^ ((decimalDigits num).length - 1) ≤ num ∧ num < 10 ^ (decimalDigits num).length := by
  have hpos : 0 < (decimalDigits num).length := Nat.length_toDigits_pos
  refine ⟨?_, (Nat.length_toDigits_le_iff (by decide) hpos).1 (Nat.le_refl _)⟩
  rcases Nat.eq_zero_or_pos ((decimalDigits num).length - 1) with h | h
  · rw [h]
    exact hn
  · by_contra hlt
    have hle := (Nat.length_toDigits_le_iff (by decide) h).2 (Nat.lt_of_not_le hlt)
    change (decimalDigits num).length ≤ _ at hle
    omega

theorem length_decimalDigits_eq (hp : 0 < places) (hlo : 10 ^ (places - 1) ≤ digits)
    (hhi : digits < 10 ^ places) : (decimalDigits digits).length = places := by
  have hpos : 0 < digits := Nat.lt_of_lt_of_le (by positivity) hlo
  have hlt := (Nat.pow_lt_pow_iff_right (by decide)).1
    (hlo.trans_lt (length_decimalDigits hpos).2)
  have hle := (Nat.length_toDigits_le_iff (by decide) hp).2 hhi
  change (decimalDigits digits).length ≤ _ at hle
  omega

theorem ten_pow_le_div_iff (hd : 0 < den) (k : Nat) :
    (10 : ℚ) ^ (k : Int) ≤ num / den ↔ 10 ^ k * den ≤ num := by
  rw [zpow_natCast, le_div_iff₀ (Nat.cast_pos.2 hd)]
  exact_mod_cast Iff.rfl

theorem ten_pow_neg_le_div_iff (hd : 0 < den) (k : Nat) :
    (10 : ℚ) ^ (-k : Int) ≤ num / den ↔ den ≤ num * 10 ^ k := by
  rw [zpow_neg, zpow_natCast, inv_eq_one_div, div_le_div_iff₀ (by positivity) (Nat.cast_pos.2 hd),
    one_mul]
  exact_mod_cast Iff.rfl

/-- The decimal exponent of a quotient is that of the power of ten at or below it. -/
theorem decimalExponent_spec (hn : 0 < num) (hd : 0 < den) :
    (10 : ℚ) ^ decimalExponent num den ≤ num / den ∧
      (num / den : ℚ) < 10 ^ (decimalExponent num den + 1) := by
  rw [← not_le]
  unfold decimalExponent
  split
  · next h =>
    obtain ⟨hle, hlt⟩ := length_decimalDigits (Nat.div_pos h hd)
    have hpos : 0 < (decimalDigits (num / den)).length := Nat.length_toDigits_pos
    rw [Int.sub_add_cancel, ten_pow_le_div_iff hd, Nat.not_le, ← Nat.div_lt_iff_lt_mul hd,
      ← Nat.cast_pred hpos, ten_pow_le_div_iff hd, ← Nat.le_div_iff_mul_le hd]
    exact ⟨hle, hlt⟩
  · next h =>
    obtain ⟨hle, hlt⟩ := length_decimalDigits hn
    obtain ⟨hle', hlt'⟩ := length_decimalDigits hd
    have hpos : 0 < (decimalDigits num).length := Nat.length_toDigits_pos
    have hlength : (decimalDigits num).length ≤ (decimalDigits den).length :=
      (Nat.length_toDigits_le_iff (by decide) Nat.length_toDigits_pos).2
        ((Nat.lt_of_not_le h).trans hlt')
    dsimp only
    generalize hgap : (decimalDigits den).length - (decimalDigits num).length = gap
    split
    · next hge =>
      have hgap' : 0 < gap := by
        rcases Nat.eq_zero_or_pos gap with rfl | hp
        · rw [Nat.pow_eq, Nat.pow_zero] at hge
          omega
        · exact hp
      refine ⟨(ten_pow_neg_le_div_iff hd gap).2 hge, ?_⟩
      rw [show (-gap + 1 : Int) = -(gap - 1 : Nat) by omega, ten_pow_neg_le_div_iff hd, Nat.not_le]
      calc num * 10 ^ (gap - 1)
          < 10 ^ (decimalDigits num).length * 10 ^ (gap - 1) :=
            Nat.mul_lt_mul_of_pos_right hlt (by positivity)
        _ = 10 ^ ((decimalDigits den).length - 1) := by
          rw [← Nat.pow_add]
          congr 1
          omega
        _ ≤ den := hle'
    · next hlt =>
      rw [show (-(gap + 1) : Int) = -(gap + 1 : Nat) by omega, ten_pow_neg_le_div_iff hd,
        show (-(gap + 1 : Nat) + 1 : Int) = -gap by omega, ten_pow_neg_le_div_iff hd]
      refine ⟨?_, hlt⟩
      calc den ≤ 10 ^ (decimalDigits den).length := hlt'.le
        _ = 10 ^ ((decimalDigits num).length - 1) * 10 ^ (gap + 1) := by
          rw [← Nat.pow_add]
          congr 1
          omega
        _ ≤ num * 10 ^ (gap + 1) := Nat.mul_le_mul_right _ hle

/-! ## Rounded quotients -/

theorem abs_sub_divNearest (hd : 0 < den) (num : Nat) :
    |(num / den : ℚ) - divNearest num den| ≤ 1 / 2 := by
  have hpos : (0 : ℚ) < den := Nat.cast_pos.2 hd
  have hdist : (2 * Nat.dist num (divNearest num den * den) : ℚ) ≤ den := by
    exact_mod_cast (divNearest_spec hd num).1
  rw [cast_dist, Nat.cast_mul, abs_sub_comm] at hdist
  rw [← mul_le_mul_iff_left₀ hpos, ← abs_of_pos hpos, ← abs_mul, abs_of_pos hpos, sub_mul,
    div_mul_cancel₀ _ hpos.ne']
  linarith

/-- A quotient nearer than one half to an integer is rounded to it. -/
theorem divNearest_eq_of_near {k : Nat} (hd : 0 < den) (h : |(num / den : ℚ) - k| < 1 / 2) :
    divNearest num den = k := by
  have hle := abs_sub_divNearest hd num
  rw [abs_sub_comm] at hle
  have hlt : |(divNearest num den - k : ℚ)| < 1 := by
    have htriangle := abs_sub_le (divNearest num den : ℚ) (num / den) k
    linarith
  have hint : |(divNearest num den - k : ℤ)| < 1 := by exact_mod_cast hlt
  rw [Int.abs_lt_one_iff] at hint
  omega

theorem scaleByTen_spec (hd : 0 < den) (num : Nat) (power : Int) :
    0 < (scaleByTen num den power).2 ∧
      ((scaleByTen num den power).1 / (scaleByTen num den power).2 : ℚ) =
        num / den * 10 ^ power := by
  unfold scaleByTen
  split
  · next h =>
    refine ⟨hd, ?_⟩
    rw [Nat.pow_eq, Nat.cast_mul, Nat.cast_pow, Nat.cast_ofNat, ← zpow_natCast,
      Int.toNat_of_nonneg h, div_mul_eq_mul_div]
  · next h =>
    refine ⟨Nat.mul_pos hd (Nat.pow_pos (by decide)), ?_⟩
    rw [Nat.pow_eq, Nat.cast_mul, Nat.cast_pow, Nat.cast_ofNat, ← zpow_natCast,
      Int.toNat_of_nonneg (by omega), zpow_neg, div_mul_eq_div_div, div_inv_eq_mul]

/-! ## Significant digits -/

/-- What the last of some significant digits counts. -/
def lastPlace (places : Nat) (exponent : Int) : ℚ := 10 ^ (exponent - (places - 1))

theorem lastPlace_pos (places : Nat) (exponent : Int) : 0 < lastPlace places exponent :=
  ten_zpow_pos _

theorem lastPlace_succ (places : Nat) (exponent : Int) :
    lastPlace places (exponent + 1) = lastPlace places exponent * 10 := by
  rw [lastPlace, lastPlace, ← ten_zpow_succ]
  congr 1
  omega

theorem mul_lastPlace (hp : 0 < places) (exponent : Int) :
    ((10 ^ (places - 1) : Nat) : ℚ) * lastPlace places exponent = 10 ^ exponent := by
  rw [lastPlace, Nat.cast_pow, Nat.cast_ofNat, ← zpow_natCast, ← zpow_add₀ (by norm_num)]
  congr 1
  omega

theorem mul_lastPlace_succ (hp : 0 < places) (exponent : Int) :
    ((10 ^ places : Nat) : ℚ) * lastPlace places exponent = 10 ^ (exponent + 1) := by
  obtain ⟨k, rfl⟩ : ∃ k, places = k + 1 := ⟨places - 1, by omega⟩
  have h := mul_lastPlace hp exponent
  rw [Nat.add_sub_cancel] at h
  rw [Nat.pow_succ, ten_zpow_succ, ← h]
  push_cast
  ring

/-- The digits of a quotient on the grid of its own exponent, be they one more. -/
def gridDigits (places num den : Nat) : Nat :=
  let scaled := scaleByTen num den (places - 1 - decimalExponent num den)
  divNearest scaled.1 scaled.2

theorem ofQuotient_eq_ite (places num den : Nat) : Decimal.ofQuotient places num den =
    if gridDigits places num den = 10 ^ places then
      ⟨decimalDigits (10 ^ (places - 1)), decimalExponent num den + 1⟩
    else ⟨decimalDigits (gridDigits places num den), decimalExponent num den⟩ := rfl

theorem gridDigits_spec (hd : 0 < den) (num places : Nat) :
    |(num / den : ℚ) / lastPlace places (decimalExponent num den) - gridDigits places num den| ≤
        1 / 2 ∧
      ∀ k : Nat, |(num / den : ℚ) / lastPlace places (decimalExponent num den) - k| < 1 / 2 →
        gridDigits places num den = k := by
  obtain ⟨hpos, hscaled⟩ := scaleByTen_spec hd num (places - 1 - decimalExponent num den)
  have hplace : (num / den : ℚ) / lastPlace places (decimalExponent num den) =
      num / den * 10 ^ ((places : Int) - 1 - decimalExponent num den) := by
    rw [lastPlace, div_eq_mul_inv, ← zpow_neg]
    congr 2
    omega
  rw [hplace, ← hscaled]
  exact ⟨abs_sub_divNearest hpos _, fun k hk => divNearest_eq_of_near hpos hk⟩

theorem abs_sub_mul_lastPlace (q k : ℚ) (places : Nat) (exponent : Int) :
    |q - k * lastPlace places exponent| =
      |q / lastPlace places exponent - k| * lastPlace places exponent := by
  have hpos := lastPlace_pos places exponent
  have habs : |lastPlace places exponent| = lastPlace places exponent := abs_of_pos hpos
  calc |q - k * lastPlace places exponent|
      = |(q / lastPlace places exponent - k) * lastPlace places exponent| := by
        rw [sub_mul, div_mul_cancel₀ _ hpos.ne']
    _ = |q / lastPlace places exponent - k| * lastPlace places exponent := by rw [abs_mul, habs]

/-- The grid of the decimal exponent rounds to an integer that is nearer than one half. -/
theorem gridDigits_eq_of_near {k : Nat} (hd : 0 < den)
    (h : |(num / den : ℚ) - k * lastPlace places (decimalExponent num den)| <
      lastPlace places (decimalExponent num den) / 2) : gridDigits places num den = k := by
  have hpos := lastPlace_pos places (decimalExponent num den)
  refine (gridDigits_spec hd num places).2 k ?_
  rw [abs_sub_mul_lastPlace] at h
  nlinarith

/-- The digits are of the given number, or carry. -/
theorem gridDigits_bounds (hp : 0 < places) (hn : 0 < num) (hd : 0 < den) :
    10 ^ (places - 1) ≤ gridDigits places num den ∧ gridDigits places num den ≤ 10 ^ places := by
  obtain ⟨hlo, hhi⟩ := decimalExponent_spec hn hd
  have hpos := lastPlace_pos places (decimalExponent num den)
  rw [← mul_lastPlace hp, ← le_div_iff₀ hpos] at hlo
  rw [← mul_lastPlace_succ hp, ← div_lt_iff₀ hpos] at hhi
  obtain ⟨hle, hge⟩ := abs_le.1 (gridDigits_spec hd num places).1
  constructor
  · have hlt : ((10 ^ (places - 1) : Nat) : ℚ) < (gridDigits places num den + 1 : Nat) := by
      push_cast at hlo ⊢
      linarith
    exact Nat.le_of_lt_succ (by exact_mod_cast hlt)
  · have hlt : (gridDigits places num den : ℚ) < (10 ^ places + 1 : Nat) := by
      push_cast at hhi ⊢
      linarith
    exact Nat.le_of_lt_succ (by exact_mod_cast hlt)

/-- A positive quotient is rounded to digits of the given number, and to within half of the last
one. -/
theorem ofQuotient_spec (hp : 0 < places) (hn : 0 < num) (hd : 0 < den) :
    ∃ digits exponent, Decimal.ofQuotient places num den = ⟨decimalDigits digits, exponent⟩ ∧
      10 ^ (places - 1) ≤ digits ∧ digits < 10 ^ places ∧
      |(num / den : ℚ) - digits * lastPlace places exponent| ≤ lastPlace places exponent / 2 := by
  obtain ⟨hlo, hhi⟩ := gridDigits_bounds hp hn hd
  have hpos := lastPlace_pos places (decimalExponent num den)
  have hnear : |(num / den : ℚ) - gridDigits places num den *
      lastPlace places (decimalExponent num den)| ≤
        lastPlace places (decimalExponent num den) / 2 := by
    rw [abs_sub_mul_lastPlace]
    have hle := mul_le_mul_of_nonneg_right (gridDigits_spec hd num places).1 hpos.le
    linarith
  rw [ofQuotient_eq_ite]
  split
  · next hcarry =>
    refine ⟨_, _, rfl, Nat.le_refl _, Nat.pow_lt_pow_right (by decide) (by omega), ?_⟩
    rw [mul_lastPlace hp, ← mul_lastPlace_succ hp, ← hcarry, lastPlace_succ]
    linarith
  · next hne => exact ⟨_, _, rfl, hlo, Nat.lt_of_le_of_ne hhi hne, hnear⟩

/-- A quotient that is much nearer to a decimal than its last digit is rounded to it. -/
theorem ofQuotient_eq_of_near (hp : 0 < places) (hn : 0 < num) (hd : 0 < den)
    (hlo : 10 ^ (places - 1) ≤ digits) (hhi : digits < 10 ^ places)
    (h : |(num / den : ℚ) - digits * lastPlace places exponent| <
      lastPlace places exponent / 20) :
    Decimal.ofQuotient places num den = ⟨decimalDigits digits, exponent⟩ := by
  have hpos := lastPlace_pos places exponent
  obtain ⟨hge, hlt⟩ := decimalExponent_spec hn hd
  obtain ⟨hleft, hright⟩ := abs_lt.1 h
  have hbelow : (num / den : ℚ) < 10 ^ (exponent + 1) := by
    have hsucc : ((digits + 1 : Nat) : ℚ) * lastPlace places exponent ≤ 10 ^ (exponent + 1) := by
      rw [← mul_lastPlace_succ hp]
      exact mul_le_mul_of_nonneg_right (Nat.cast_le.2 hhi) hpos.le
    rw [Nat.cast_succ, add_mul, one_mul] at hsucc
    linarith
  rw [ofQuotient_eq_ite]
  rcases le_or_gt (10 ^ exponent) (num / den : ℚ) with habove | hunder
  · have heq : decimalExponent num den = exponent :=
      le_antisymm (exponent_le hge hbelow) (exponent_le habove hlt)
    have hdigits : gridDigits places num den = digits := by
      refine gridDigits_eq_of_near hd ?_
      rw [heq]
      linarith
    rw [hdigits, if_neg (Nat.ne_of_lt hhi), heq]
  · -- below the power of ten the grid is finer, and the digits carry to the decimal
    have hten := mul_lastPlace hp exponent
    have hone : (1 : ℚ) ≤ (10 ^ (places - 1) : Nat) := by
      exact_mod_cast Nat.one_le_pow _ _ (by decide)
    have hdigits : digits = 10 ^ (places - 1) := by
      by_contra hne
      have hsucc : ((10 ^ (places - 1) + 1 : Nat) : ℚ) * lastPlace places exponent ≤
          digits * lastPlace places exponent :=
        mul_le_mul_of_nonneg_right (Nat.cast_le.2 (by omega)) hpos.le
      rw [Nat.cast_succ, add_mul, one_mul, hten] at hsucc
      linarith
    have hstep : exponent - 1 + 1 = exponent := Int.sub_add_cancel ..
    have hlast := lastPlace_succ places (exponent - 1)
    have hcarry := mul_lastPlace_succ hp (exponent - 1)
    have hprevious := ten_zpow_succ (exponent - 1)
    rw [hstep] at hlast hcarry hprevious
    rw [hdigits, hten] at hleft hright
    have heq : decimalExponent num den = exponent - 1 := by
      refine le_antisymm (exponent_le hge (hstep.symm ▸ hunder)) (exponent_le ?_ hlt)
      have hsmall := le_mul_of_one_le_left hpos.le hone
      linarith
    have hgrid : gridDigits places num den = 10 ^ places := by
      refine gridDigits_eq_of_near hd ?_
      rw [heq, hcarry, abs_lt]
      constructor <;> linarith
    rw [hgrid, if_pos rfl, heq, hstep, hdigits]

end FormulaScript.Number
