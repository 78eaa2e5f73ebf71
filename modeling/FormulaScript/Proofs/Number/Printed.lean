import FormulaScript.Proofs.Number.Layouts
import FormulaScript.Proofs.Number.Magnitudes
import FormulaScript.Proofs.Number.Unpacked
import FormulaScript.Proofs.Token.Numbers

/-!
# Printed numbers are read back

A number is printed as the decimal of some digits that is nearest to it. The double nearest to this
decimal may be another one than the number, but it is so much nearer to the decimal than the last
digit counts that it is printed as the same one. An integer of no more digits is printed exactly.
-/

namespace FormulaScript.Number

variable {num den : Nat} {x : Float}

/-! ## Decimals as doubles -/

/-- A decimal within wide bounds is rounded to the nearest double. -/
theorem Scientific.toFloat_eq (s : Scientific)
    (hlo : (10 : ℚ) ^ (-400 : Int) ≤ s.digits * 10 ^ s.power)
    (hhi : (s.digits * 10 ^ s.power : ℚ) ≤ 10 ^ (400 : Int)) :
    ∃ num den, 0 < den ∧ s.toFloat = nearest num den ∧
      (num / den : ℚ) = s.digits * 10 ^ s.power := by
  have hne : s.digits ≠ 0 := by
    intro h
    rw [h, Nat.cast_zero, zero_mul] at hlo
    exact (ten_zpow_pos _).not_ge hlo
  unfold Scientific.toFloat
  rw [if_neg hne]
  split
  · next hp =>
    have hone : (1 : ℚ) ≤ s.digits := by exact_mod_cast Nat.pos_of_ne_zero hne
    have hpower : ¬ 400 < s.power := by
      have hle : (10 : ℚ) ^ s.power ≤ 10 ^ (400 : Int) :=
        (le_mul_of_one_le_left (ten_zpow_pos _).le hone).trans hhi
      exact not_lt.2 ((zpow_le_zpow_iff_right₀ (by norm_num)).1 hle)
    rw [if_neg hpower]
    refine ⟨_, _, Nat.one_pos, rfl, ?_⟩
    rw [Nat.pow_eq, Nat.cast_one, div_one, Nat.cast_mul, Nat.cast_pow, Nat.cast_ofNat,
      ← zpow_natCast, Int.toNat_of_nonneg hp]
  · next hp =>
    have hdigits : (s.digits : ℚ) < 10 ^ ((s.digits.log2 : Int) + 1) := by
      have hlt : s.digits < 10 ^ (s.digits.log2 + 1) :=
        Nat.lt_log2_self.trans_le (Nat.pow_le_pow_left (by decide) _)
      rw [← Nat.cast_succ, zpow_natCast]
      exact_mod_cast hlt
    have hpower : ¬ 400 + (s.digits.log2 : Int) < -s.power := by
      have hlt := hlo.trans_lt (mul_lt_mul_of_pos_right hdigits (ten_zpow_pos s.power))
      rw [← zpow_add₀ (by norm_num), zpow_lt_zpow_iff_right₀ (by norm_num)] at hlt
      omega
    rw [if_neg hpower]
    refine ⟨_, _, Nat.pow_pos (by decide), rfl, ?_⟩
    rw [Nat.cast_pow, Nat.cast_ofNat, ← zpow_natCast, Int.toNat_of_nonneg (by omega), zpow_neg,
      div_inv_eq_mul]

/-- The magnitude of the double nearest to a quotient that is not beyond the largest one. -/
theorem scaled_nearest (hd : 0 < den) (h : num < (2 ^ 1024 - 2 ^ 970) * den) :
    scaled (nearest num den) = unitsOfBits (wordOf (num * unitsPerOne) den) := by
  have hlt := mt (infinityBits_le_wordOf_iff' hd num).1 (Nat.not_le_of_lt h)
  rw [scaled_eq, magnitudeBits_nearest, nearestBits_eq, Nat.min_eq_left (Nat.le_of_not_le hlt)]

/-- The double nearest to a quotient in the range of the normal ones is off by a small part of
it. -/
theorem abs_scaled_nearest_sub_le (hd : 0 < den) (hlo : den * 2 ^ 51 ≤ num * unitsPerOne)
    (hhi : num < (2 ^ 1024 - 2 ^ 970) * den) :
    |(scaled (nearest num den) / unitsPerOne : ℚ) - num / den| ≤ num / den / 2 ^ 52 := by
  have hu : (0 : ℚ) < unitsPerOne := Nat.cast_pos.2 unitsPerOne_pos
  have hd' : (0 : ℚ) < den := Nat.cast_pos.2 hd
  have herror := wordOf_error hd hlo
  rw [← scaled_nearest hd hhi] at herror
  have herror : (2 ^ 52 * Nat.dist (num * unitsPerOne) (scaled (nearest num den) * den) : ℚ) ≤
      num * unitsPerOne := by exact_mod_cast herror
  rw [cast_dist, Nat.cast_mul, Nat.cast_mul] at herror
  rw [div_sub_div _ _ hu.ne' hd'.ne', abs_div, abs_of_pos (mul_pos hu hd'), div_div,
    div_le_div_iff₀ (mul_pos hu hd') (by positivity), mul_comm (unitsPerOne : ℚ) num]
  generalize (unitsPerOne : ℚ) = u at herror ⊢
  have hmul := mul_le_mul_of_nonneg_right herror hd'.le
  linarith

/-! ## The range of printed decimals -/

variable {digits : Nat} {exponent : Int} {v : ℚ}

theorem lastPlace_le (hlo : 10 ^ (printPrecision - 1) ≤ digits) (exponent : Int) :
    lastPlace printPrecision exponent * 10 ^ 11 ≤ digits * lastPlace printPrecision exponent := by
  rw [mul_comm]
  refine mul_le_mul_of_nonneg_right ?_ (lastPlace_pos _ _).le
  exact_mod_cast hlo

/-- The decimal of a number is not less than half of it. -/
theorem half_le_of_near (hlo : 10 ^ (printPrecision - 1) ≤ digits)
    (h : |v - digits * lastPlace printPrecision exponent| ≤
      lastPlace printPrecision exponent / 2) :
    v / 2 ≤ digits * lastPlace printPrecision exponent := by
  have hpos := lastPlace_pos printPrecision exponent
  have hle := lastPlace_le hlo exponent
  have hright := (abs_le.1 h).2
  linarith

/-- The decimal of a finite double is below the numbers that are read as infinity. -/
theorem lt_overflow_of_near (hlo : 10 ^ (printPrecision - 1) ≤ digits)
    (hhi : digits < 10 ^ printPrecision) (hv : v ≤ ((2 ^ 53 - 1) * 2 ^ 971 : Nat))
    (h : |v - digits * lastPlace printPrecision exponent| ≤
      lastPlace printPrecision exponent / 2) :
    digits * lastPlace printPrecision exponent < (2 ^ 1024 - 2 ^ 970 : Nat) := by
  have hpos := lastPlace_pos printPrecision exponent
  have hcast {a b : Nat} (h : a < b) : (a : ℚ) < b := Nat.cast_lt.2 h
  have hleft := (abs_le.1 h).1
  rcases lt_trichotomy exponent 308 with hexp | rfl | hexp
  · calc digits * lastPlace printPrecision exponent
        < (10 ^ printPrecision : Nat) * lastPlace printPrecision exponent :=
          mul_lt_mul_of_pos_right (hcast hhi) hpos
      _ = 10 ^ (exponent + 1) := mul_lastPlace_succ (by decide) exponent
      _ ≤ 10 ^ ((308 : Nat) : Int) :=
          (zpow_le_zpow_iff_right₀ (by norm_num)).2 (by exact_mod_cast hexp)
      _ = (10 ^ 308 : Nat) := ten_zpow_natCast 308
      _ < (2 ^ 1024 - 2 ^ 970 : Nat) := hcast (by decide +kernel)
  · have hplace : lastPlace printPrecision 308 = (10 ^ 297 : Nat) := ten_zpow_natCast 297
    have hmax : 2 * ((2 ^ 53 - 1) * 2 ^ 971) + 10 ^ 297 < 2 * (179769313487 * 10 ^ 297) := by
      decide +kernel
    have hlast : 179769313486 * 10 ^ 297 < 2 ^ 1024 - 2 ^ 970 := by decide +kernel
    rw [hplace] at hleft ⊢
    generalize (2 ^ 53 - 1) * 2 ^ 971 = largest at hv hmax
    generalize 2 ^ 1024 - 2 ^ 970 = limit at hlast ⊢
    generalize 10 ^ 297 = place at hleft hmax hlast ⊢
    have hdouble : ((2 * (digits * place) : Nat) : ℚ) ≤ (2 * largest + place : Nat) := by
      push_cast
      linarith
    have hdigits : digits < 179769313487 := by
      refine Nat.lt_of_mul_lt_mul_right (a := place) ?_
      have hle : 2 * (digits * place) ≤ 2 * largest + place := Nat.cast_le.1 hdouble
      omega
    rw [← Nat.cast_mul]
    exact hcast ((Nat.mul_le_mul_right place (Nat.le_of_lt_succ hdigits)).trans_lt hlast)
  · have hmax : 2 * ((2 ^ 53 - 1) * 2 ^ 971) < 10 ^ 309 := by decide +kernel
    have hge : (10 ^ 309 : Nat) ≤ digits * lastPlace printPrecision exponent := by
      calc ((10 ^ 309 : Nat) : ℚ) = 10 ^ ((309 : Nat) : Int) := (ten_zpow_natCast 309).symm
        _ ≤ 10 ^ exponent := (zpow_le_zpow_iff_right₀ (by norm_num)).2 (by exact_mod_cast hexp)
        _ = (10 ^ (printPrecision - 1) : Nat) * lastPlace printPrecision exponent :=
            (mul_lastPlace (by decide) exponent).symm
        _ ≤ digits * lastPlace printPrecision exponent :=
            mul_le_mul_of_nonneg_right (Nat.cast_le.2 hlo) hpos.le
    have hle := lastPlace_le hlo exponent
    generalize (2 ^ 53 - 1) * 2 ^ 971 = largest at hv hmax
    generalize 10 ^ 309 = power at hge hmax
    have hlt : ((2 * largest : Nat) : ℚ) < power := hcast hmax
    push_cast at hlt
    linarith

/-! ## Reading back -/

/-- The layout of printed numbers. -/
abbrev printLayout : Layout := ⟨printPrecision, false⟩

theorem format_eq (hx : isFinite x) (hn : isNegative x = false) (hs : scaled x ≠ 0) :
    format x = String.ofList
      (printLayout.render (.ofQuotient printPrecision (scaled x) unitsPerOne)) := by
  have hp : max printPrecision 1 = printPrecision := rfl
  unfold format significant Layout.text
  dsimp only
  rw [isNaN_of_isFinite hx, hx, hn, hp, if_neg Bool.false_ne_true, if_neg (by decide), if_neg hs,
    if_neg Bool.false_ne_true, List.nil_append]

/-- The text of a decimal in the range of the normal doubles is read as the nearest one. -/
theorem decode?_render (hlo : 10 ^ (printPrecision - 1) ≤ digits)
    (hhi : digits < 10 ^ printPrecision)
    (hmin : 2 ^ 51 ≤ digits * lastPlace printPrecision exponent * unitsPerOne)
    (hmax : digits * lastPlace printPrecision exponent < (2 ^ 1024 - 2 ^ 970 : Nat)) :
    ∃ num den, 0 < den ∧ decode? (printLayout.render ⟨decimalDigits digits, exponent⟩) =
        some (nearest num den) ∧
      (num / den : ℚ) = digits * lastPlace printPrecision exponent := by
  obtain ⟨s, hx, hs, hvalue⟩ :=
    ofText?_render (show printLayout.keepsPoint = false from rfl) (by decide) hlo hhi exponent
  have hge : (10 : ℚ) ^ (-400 : Int) ≤ s.digits * 10 ^ s.power := by
    have hone : unitsPerOne ≤ 2 ^ 51 * 10 ^ 400 := by decide +kernel
    have hpos : 0 < 10 ^ 400 := by positivity
    have hnonneg : 0 ≤ digits * lastPlace printPrecision exponent :=
      mul_nonneg (Nat.cast_nonneg _) (lastPlace_pos _ _).le
    rw [hvalue, show (-400 : Int) = -(400 : Nat) from rfl, zpow_neg,
      ten_zpow_natCast]
    generalize 10 ^ 400 = power at hone hpos ⊢
    have hone : (unitsPerOne : ℚ) ≤ 2 ^ 51 * power := by exact_mod_cast hone
    rw [inv_le_iff_one_le_mul₀ (Nat.cast_pos.2 hpos)]
    have hmul := mul_le_mul_of_nonneg_left hone hnonneg
    linarith
  have hle : (s.digits * 10 ^ s.power : ℚ) ≤ 10 ^ (400 : Int) := by
    rw [hvalue, show (400 : Int) = (400 : Nat) from rfl, ten_zpow_natCast]
    exact hmax.le.trans (Nat.cast_le.2 (by decide +kernel))
  obtain ⟨num, den, hd, hfloat, hquotient⟩ := s.toFloat_eq hge hle
  refine ⟨num, den, hd, ?_, hquotient.trans hvalue⟩
  rw [decode?_of_not_hasRadix hx, hs, Option.map_some, hfloat]

theorem nearest_of_eq (hx : isFinite x) (hn : isNegative x = false) (hd : 0 < den)
    (h : (num / den : ℚ) = scaled x / unitsPerOne) : nearest num den = x := by
  have hword : magnitudeBits x < infinityBits := of_decide_eq_true hx
  have hunits : num * unitsPerOne = scaled x * den := by
    rw [div_eq_div_iff (Nat.cast_ne_zero.2 hd.ne') (Nat.cast_ne_zero.2 unitsPerOne_pos.ne')] at h
    exact_mod_cast h
  have hbits : nearestBits num den = magnitudeBits x := by
    rw [nearestBits_eq, hunits, wordOf_mul hd, scaled_eq, wordOf_unitsOfBits,
      Nat.min_eq_left hword.le]
  have hmag : magnitudeBits x = x.toBits.toNat :=
    Nat.mod_eq_of_lt (Nat.lt_of_not_le (of_decide_eq_false hn))
  rw [nearest, hbits, hmag, UInt64.ofNat_toNat, Float.ofBits_toBits]

/-- The value of a double in the range of the normal ones. -/
theorem scaled_div_bounds (hx : isFinite x) :
    (scaled x / unitsPerOne : ℚ) ≤ ((2 ^ 53 - 1) * 2 ^ 971 : Nat) := by
  have hle := unitsOfBits_le_of_lt (of_decide_eq_true hx : magnitudeBits x < infinityBits)
  have hsplit : (2 ^ 53 - 1) * 2 ^ 2045 = (2 ^ 53 - 1) * 2 ^ 971 * unitsPerOne := by
    rw [unitsPerOne_eq, two_pow_split (show 2045 = 971 + 1074 from rfl), Nat.mul_assoc]
  rw [hsplit, ← scaled_eq] at hle
  rw [div_le_iff₀ (Nat.cast_pos.2 unitsPerOne_pos), ← Nat.cast_mul]
  exact Nat.cast_le.2 hle

/-- A decimal that a double is printed as is read as a double that is printed as this decimal. -/
theorem exists_decode?_format (hx : isFinite x) (hn : isNegative x = false)
    (hs : 2 ^ 52 ≤ scaled x) :
    ∃ y, decode? (format x).toList = some y ∧ format y = format x := by
  have hu : (0 : ℚ) < unitsPerOne := Nat.cast_pos.2 unitsPerOne_pos
  have hpos : 0 < scaled x := Nat.lt_of_lt_of_le (by decide) hs
  obtain ⟨digits, exponent, hquotient, hlo, hhi, hnear⟩ :=
    ofQuotient_spec (show 0 < printPrecision by decide) hpos unitsPerOne_pos
  have hlast := lastPlace_pos printPrecision exponent
  have hmax := lt_overflow_of_near hlo hhi (scaled_div_bounds hx) hnear
  have hmin : 2 ^ 51 ≤ digits * lastPlace printPrecision exponent * unitsPerOne := by
    have hhalf := half_le_of_near hlo hnear
    have hs : (2 ^ 52 : ℚ) ≤ scaled x := by exact_mod_cast hs
    have hmul := mul_le_mul_of_nonneg_right hhalf hu.le
    have hcancel : (scaled x / unitsPerOne / 2 * unitsPerOne : ℚ) = scaled x / 2 := by
      rw [div_right_comm, div_mul_cancel₀ _ hu.ne']
    rw [hcancel] at hmul
    linarith
  obtain ⟨num, den, hd, hdecode, hvalue⟩ := decode?_render hlo hhi hmin hmax
  have htext : format x =
      String.ofList (printLayout.render ⟨decimalDigits digits, exponent⟩) := by
    rw [format_eq hx hn hpos.ne', hquotient]
  refine ⟨nearest num den, by rw [htext, String.toList_ofList, hdecode], ?_⟩
  have hlimit : num < (2 ^ 1024 - 2 ^ 970) * den := by
    rw [← hvalue, div_lt_iff₀ (Nat.cast_pos.2 hd)] at hmax
    exact_mod_cast hmax
  have hnormal : den * 2 ^ 51 ≤ num * unitsPerOne := by
    rw [← hvalue, div_mul_eq_mul_div, le_div_iff₀ (Nat.cast_pos.2 hd), mul_comm] at hmin
    exact_mod_cast hmin
  have hfinite := (isNearest_nearest hd hlimit).finite
  have hclose : |(scaled (nearest num den) / unitsPerOne : ℚ) -
      digits * lastPlace printPrecision exponent| < lastPlace printPrecision exponent / 20 := by
    have hdigits : (digits : ℚ) < 10 ^ 12 := by exact_mod_cast hhi
    have hsmall := mul_lt_mul_of_pos_right hdigits hlast
    rw [← hvalue]
    refine (abs_scaled_nearest_sub_le hd hnormal hlimit).trans_lt ?_
    rw [hvalue]
    linarith
  have hscaled : 0 < scaled (nearest num den) := by
    have hlarge := lastPlace_le hlo exponent
    have hpositive : (0 : ℚ) < scaled (nearest num den) / unitsPerOne := by
      linarith [(abs_lt.1 hclose).1]
    exact Nat.cast_pos.1 ((div_pos_iff_of_pos_right hu).1 hpositive)
  rw [htext, format_eq hfinite (isNegative_ofBits (Nat.min_le_right _ _)) hscaled.ne',
    ofQuotient_eq_of_near (by decide) hscaled unitsPerOne_pos hlo hhi hclose]

/-- An integer of no more digits than are printed is printed exactly. -/
theorem decode?_format_integer {n : Nat} (hx : isFinite x) (hn : isNegative x = false)
    (hpos : 0 < n) (hlt : n < 10 ^ printPrecision) (hs : scaled x = n * unitsPerOne) :
    decode? (format x).toList = some x := by
  have hu : (unitsPerOne : ℚ) ≠ 0 := Nat.cast_ne_zero.2 unitsPerOne_pos.ne'
  have hvalue : (scaled x / unitsPerOne : ℚ) = n := by
    rw [hs, Nat.cast_mul, mul_div_cancel_right₀ _ hu]
  obtain ⟨e, he⟩ : ∃ e, e = Nat.log 10 n := ⟨_, rfl⟩
  have hle : 10 ^ e ≤ n := he ▸ Nat.pow_log_le_self 10 hpos.ne'
  have hgt : n < 10 ^ (e + 1) := he ▸ Nat.lt_pow_succ_log_self (by decide) n
  have hbound : e < printPrecision :=
    (Nat.pow_lt_pow_iff_right (by decide)).1 (hle.trans_lt hlt)
  -- all digits of the number, with zeros after them
  have hdigits : ((n * 10 ^ (printPrecision - 1 - e) : Nat) : ℚ) * lastPlace printPrecision e =
      n := by
    rw [lastPlace, Nat.cast_mul, Nat.cast_pow, Nat.cast_ofNat, mul_assoc, ← zpow_natCast,
      ← zpow_add₀ (by norm_num),
      show ((printPrecision - 1 - e : Nat) : Int) + (e - (printPrecision - 1)) = 0 by omega,
      zpow_zero, mul_one]
  have hlo : 10 ^ (printPrecision - 1) ≤ n * 10 ^ (printPrecision - 1 - e) := by
    calc 10 ^ (printPrecision - 1) = 10 ^ e * 10 ^ (printPrecision - 1 - e) := by
          rw [← Nat.pow_add]
          congr 1
          omega
      _ ≤ n * 10 ^ (printPrecision - 1 - e) := Nat.mul_le_mul_right _ hle
  have hhi : n * 10 ^ (printPrecision - 1 - e) < 10 ^ printPrecision := by
    calc n * 10 ^ (printPrecision - 1 - e) < 10 ^ (e + 1) * 10 ^ (printPrecision - 1 - e) :=
          Nat.mul_lt_mul_of_pos_right hgt (by positivity)
      _ = 10 ^ printPrecision := by
        rw [← Nat.pow_add]
        congr 1
        omega
  have hscaled : 0 < scaled x := hs ▸ Nat.mul_pos hpos unitsPerOne_pos
  have hquotient : Decimal.ofQuotient printPrecision (scaled x) unitsPerOne =
      ⟨decimalDigits (n * 10 ^ (printPrecision - 1 - e)), e⟩ := by
    refine ofQuotient_eq_of_near (by decide) hscaled unitsPerOne_pos hlo hhi ?_
    rw [hdigits, hvalue, sub_self, abs_zero]
    exact div_pos (lastPlace_pos _ _) (by norm_num)
  have hmin : 2 ^ 51 ≤ ((n * 10 ^ (printPrecision - 1 - e) : Nat) : ℚ) *
      lastPlace printPrecision e * unitsPerOne := by
    have hone : 2 ^ 51 ≤ unitsPerOne := by decide +kernel
    rw [hdigits]
    exact_mod_cast hone.trans (Nat.le_mul_of_pos_left _ hpos)
  have hmax : ((n * 10 ^ (printPrecision - 1 - e) : Nat) : ℚ) * lastPlace printPrecision e <
      (2 ^ 1024 - 2 ^ 970 : Nat) := by
    rw [hdigits]
    exact Nat.cast_lt.2 (hlt.trans_le (by decide +kernel))
  obtain ⟨num, den, hd, hdecode, hnum⟩ := decode?_render hlo hhi hmin hmax
  rw [format_eq hx hn hscaled.ne', hquotient, String.toList_ofList, hdecode,
    nearest_of_eq hx hn hd (hnum.trans (hdigits.trans hvalue.symm))]

theorem decode?_format_zero (hx : isFinite x) (hn : isNegative x = false) (hs : scaled x = 0) :
    decode? (format x).toList = some x := by
  have htext : (format x).toList = ['0'] := by
    unfold format significant Layout.text
    dsimp only
    rw [isNaN_of_isFinite hx, hx, hn, if_neg Bool.false_ne_true, if_neg (by decide), if_pos hs,
      if_neg Bool.false_ne_true]
    rfl
  have hzero : nearest 0 1 = x := by
    refine nearest_of_eq hx hn Nat.one_pos ?_
    rw [hs, Nat.cast_zero, zero_div, zero_div]
  rw [htext, ← hzero]
  exact decode?_of_decimal 0 0

/-- A text with a value is read as a single number. -/
theorem scan_of_decode? {text : List Char} {y : Float} (h : decode? text = some y) :
    ∃ finish, Token.scan text = ([⟨.number (some y), String.ofList text, 0, {}⟩, finish], []) ∧
      finish.kind = .finish := by
  have hboundary : ∀ c ∈ ([] : List Char).head?, Token.isDelimiterChar c := nofun
  have hscan := Token.scanFrom_literal h hboundary
  have hnul : Token.beforeNul text = text := by
    have happend := Token.beforeNul_append (Token.nul_not_mem_of_decode? h) []
    rwa [show Token.beforeNul [] = [] from rfl, List.append_nil] at happend
  have hend (position : Nat) (location : Location) :
      Token.scanFrom position location [] =
      ([⟨.finish, "", position, location⟩], []) := by
    rw [Token.scanFrom]
    rfl
  rw [List.append_nil, hend] at hscan
  rw [Token.scan, hnul, hscan]
  exact ⟨_, rfl, rfl⟩

theorem exactValue_of_not_isNegative (hn : isNegative x = false) :
    exactValue x = scaled x / unitsPerOne := by
  rw [exactValue, hn, if_neg Bool.false_ne_true, cast_unitsPerOne]

/-- A positive double from `2 ^ -1022` on has 53 bits at least. -/
theorem two_pow_le_scaled (hn : isNegative x = false) (hv : 1 / 2 ^ 1022 ≤ exactValue x) :
    2 ^ 52 ≤ scaled x := by
  have hpos : (0 : ℚ) < 2 ^ 1022 := by positivity
  rw [exactValue_of_not_isNegative hn, cast_unitsPerOne, show 1074 = 52 + 1022 from rfl,
    pow_add] at hv
  generalize (2 : ℚ) ^ 1022 = p at hpos hv
  rw [div_le_div_iff₀ hpos (mul_pos (by norm_num) hpos), one_mul,
    mul_le_mul_iff_left₀ hpos] at hv
  exact_mod_cast hv

/-- Zero and every positive normal double are printed as a text that is read as a single number. Its
value is printed as the same text, and it is the double itself if this is an integer of no more than
twelve digits. -/
theorem printed_reads_back (hx : isFinite x) (hn : isNegative x = false)
    (hv : exactValue x = 0 ∨ 1 / 2 ^ 1022 ≤ exactValue x) :
    ∃ y finish, decode? (format x).toList = some y ∧
      Token.scan (format x).toList = ([⟨.number (some y), format x, 0, {}⟩, finish], []) ∧
      finish.kind = .finish ∧ format y = format x ∧
      ∀ n : ℤ, exactValue x = n → n < 10 ^ 12 → y = x := by
  have hu : (unitsPerOne : ℚ) ≠ 0 := Nat.cast_ne_zero.2 unitsPerOne_pos.ne'
  suffices hread : ∃ y, decode? (format x).toList = some y ∧ format y = format x ∧
      ∀ n : ℤ, exactValue x = n → n < 10 ^ 12 → y = x by
    obtain ⟨y, hdecode, hformat, hinteger⟩ := hread
    obtain ⟨finish, hscan, hfinish⟩ := scan_of_decode? hdecode
    rw [String.ofList_toList] at hscan
    exact ⟨y, finish, hdecode, hscan, hfinish, hformat, hinteger⟩
  rcases hv with hv | hv
  · rw [exactValue_of_not_isNegative hn, div_eq_zero_iff, or_iff_left hu, Nat.cast_eq_zero] at hv
    exact ⟨x, decode?_format_zero hx hn hv, rfl, fun _ _ _ => rfl⟩
  · have hs := two_pow_le_scaled hn hv
    obtain ⟨y, hdecode, hformat⟩ := exists_decode?_format hx hn hs
    refine ⟨y, hdecode, hformat, fun n hvalue hlt => ?_⟩
    have hunits : (scaled x : ℤ) = n * unitsPerOne := by
      rw [exactValue_of_not_isNegative hn, div_eq_iff hu] at hvalue
      exact_mod_cast hvalue
    have hpos : 0 < n := by
      have hscaled : (0 : ℤ) < scaled x := by omega
      rw [hunits] at hscaled
      exact pos_of_mul_pos_left hscaled (Int.natCast_nonneg _)
    lift n to ℕ using hpos.le
    have hdecode' := decode?_format_integer hx hn (by exact_mod_cast hpos) (by exact_mod_cast hlt)
      (by exact_mod_cast hunits)
    exact Option.some.inj (hdecode.symm.trans hdecode')

/-- One third is printed with twelve digits, and these are read as a double that is printed the same
way. -/
theorem printed_reads_back_third : isFinite (1.0 / 3.0) ∧ isNegative (1.0 / 3.0) = false ∧
    1 / 2 ^ 1022 ≤ exactValue (1.0 / 3.0) ∧
    ∃ y finish, decode? "0.333333333333".toList = some y ∧
      Token.scan "0.333333333333".toList =
        ([⟨.number (some y), "0.333333333333", 0, {}⟩, finish], []) ∧
      finish.kind = .finish ∧ format y = "0.333333333333" := by
  have hx : isFinite (1.0 / 3.0) := by decide +kernel
  have hn : isNegative (1.0 / 3.0) = false := by decide +kernel
  have hv : 1 / 2 ^ 1022 ≤ exactValue (1.0 / 3.0) := by
    have hunits : unitsPerOne ≤ scaled (1.0 / 3.0) * 2 ^ 1022 := by decide +kernel
    have hpos : (0 : ℚ) < 2 ^ 1022 := by positivity
    rw [exactValue_of_not_isNegative hn, div_le_div_iff₀ hpos (Nat.cast_pos.2 unitsPerOne_pos),
      one_mul]
    exact_mod_cast hunits
  have htext : format (1.0 / 3.0) = "0.333333333333" := by decide +kernel
  obtain ⟨y, finish, hdecode, hscan, hfinish, hformat, -⟩ := printed_reads_back hx hn (.inr hv)
  rw [htext] at hdecode hscan hformat
  exact ⟨hx, hn, hv, y, finish, hdecode, hscan, hfinish, hformat⟩

end FormulaScript.Number
