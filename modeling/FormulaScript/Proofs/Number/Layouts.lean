import FormulaScript.Proofs.Number.Decimals
import FormulaScript.Proofs.Number.Numerals

/-!
# Decimals as texts

A decimal is written in one of three layouts: with an exponent, as a fraction of one, or with its
point among or after its digits. Each of them is digits with a point in front of some of the last
ones, and maybe an exponent, so a literal, and the number that the literal denotes is the decimal.
-/

namespace FormulaScript.Number

open Text

variable {whole fraction values kept : List Nat} {mark : List Char} {power : Int}

/-! ## Digits -/

/-- The text of a list of digits. -/
def digitText (values : List Nat) : List Char := values.map Nat.digitChar

theorem digitText_append (values values' : List Nat) :
    digitText (values ++ values') = digitText values ++ digitText values' := List.map_append

theorem digitText_zeros (count : Nat) :
    digitText (List.replicate count 0) = List.replicate count '0' := List.map_replicate

theorem isDecimalDigit_digitText (h : ∀ d ∈ values, d < 10) :
    ∀ c ∈ digitText values, isDecimalDigit c := by
  intro c hc
  obtain ⟨d, hd, rfl⟩ := List.mem_map.1 hc
  rw [isDecimalDigit, decimalValue?_digitChar (h d hd)]
  rfl

theorem ofDigits_append_zeros (radix : Nat) (values : List Nat) (count : Nat) :
    ofDigits radix (values ++ List.replicate count 0) = ofDigits radix values * radix ^ count := by
  induction count with
  | zero => simp
  | succ count ih =>
    rw [List.replicate_succ', ← List.append_assoc, ofDigits_concat, ih, Nat.add_zero, Nat.pow_succ,
      Nat.mul_assoc]

/-- What is left of some digits without their trailing zeros. -/
theorem exists_kept (h : ∀ d ∈ values, d < 10) : ∃ kept zeros,
    values = kept ++ List.replicate zeros 0 ∧
      dropTrailingZeros (digitText values) = digitText kept := by
  have hzero : ∀ d < 10, d.digitChar = '0' → d = 0 := by decide
  induction values using List.reverseRecOn with
  | nil => exact ⟨[], 0, rfl, rfl⟩
  | append_singleton values d ih =>
    obtain ⟨hvalues, hd⟩ := List.forall_mem_append.1 h
    have hd : d < 10 := hd d (List.mem_singleton_self d)
    obtain ⟨kept, zeros, rfl, hdrop⟩ := ih hvalues
    have hreverse : (digitText (kept ++ List.replicate zeros 0 ++ [d])).reverse =
        d.digitChar :: (digitText (kept ++ List.replicate zeros 0)).reverse := by
      rw [digitText_append, List.reverse_append]
      rfl
    unfold dropTrailingZeros at hdrop ⊢
    rw [hreverse]
    by_cases hc : d.digitChar = '0'
    · refine ⟨kept, zeros + 1, ?_, ?_⟩
      · rw [hzero d hd hc, List.append_assoc, ← List.replicate_succ']
      · rw [List.dropWhile_cons_of_pos (by simp [hc]), hdrop]
    · refine ⟨kept ++ List.replicate zeros 0 ++ [d], 0, (List.append_nil _).symm, ?_⟩
      rw [List.dropWhile_cons_of_neg (by simp [hc]), ← hreverse, List.reverse_reverse]

/-! ## Reading -/

/-- A text of digits, a point if digits come after it, and what follows the digits. -/
def pointed (whole fraction : List Nat) (mark : List Char) : List Char :=
  digitText whole ++ ((if fraction.isEmpty then [] else '.' :: digitText fraction) ++ mark)

theorem span_digitText {rest : List Char} (h : ∀ d ∈ values, d < 10)
    (hr : ∀ c ∈ rest.head?, isDecimalDigit c = false) :
    (digitText values ++ rest).takeWhile isDecimalDigit = digitText values ∧
      (digitText values ++ rest).dropWhile isDecimalDigit = rest := by
  have hd := isDecimalDigit_digitText h
  rw [List.takeWhile_append_of_pos hd, List.dropWhile_append_of_pos hd]
  cases rest with
  | nil => exact ⟨List.append_nil _, rfl⟩
  | cons c rest =>
    have hc := Bool.eq_false_iff.1 (hr c rfl)
    rw [List.takeWhile_cons_of_neg hc, List.dropWhile_cons_of_neg hc, List.append_nil]
    exact ⟨rfl, rfl⟩

theorem integer?_digitText (h : ∀ d ∈ values, d < 10) (hne : values ≠ []) :
    integer? decimalValue? 10 (digitText values) = some (ofDigits 10 values) :=
  integer?_eq_some_iff.2 ⟨fun hnil => hne (List.map_eq_nil_iff.1 hnil), values,
    map_decimalValue? h, rfl⟩

/-- A text of digits with a point denotes all of its digits, those after the point counted off. -/
theorem ofText?_pointed (h : ∀ d ∈ whole ++ fraction, d < 10) (hne : whole ++ fraction ≠ [])
    (hp : exponentPart? mark = some power) (hm : ∀ c ∈ mark.head?, c = 'e') :
    Scientific.ofText? (pointed whole fraction mark) =
      some ⟨ofDigits 10 (whole ++ fraction), power - fraction.length⟩ := by
  obtain ⟨hw, hf⟩ := List.forall_mem_append.1 h
  have hmark : ∀ c ∈ mark.head?, isDecimalDigit c = false := by
    intro c hc
    rw [hm c hc]
    decide
  have hparts : fractionPart
      ((if fraction.isEmpty then [] else '.' :: digitText fraction) ++ mark) =
        (digitText fraction, mark) := by
    cases fraction with
    | nil =>
      cases mark with
      | nil => rfl
      | cons c rest =>
        rw [hm c rfl]
        rfl
    | cons d fraction =>
      obtain ⟨ht, hd⟩ := span_digitText hf hmark
      exact Prod.ext ht hd
  have hrest : ∀ c ∈ ((if fraction.isEmpty then [] else '.' :: digitText fraction) ++ mark).head?,
      isDecimalDigit c = false := by
    cases fraction with
    | nil => exact hmark
    | cons d fraction =>
      rintro _ ⟨⟩
      decide
  obtain ⟨ht, hd⟩ := span_digitText hw hrest
  rw [Scientific.ofText?, pointed, ht, hd, hparts]
  simp only [← digitText_append, integer?_digitText h hne, hp]
  simp [digitText]

/-- The second character is a digit, a point or the mark of an exponent. -/
theorem not_hasRadix_pointed (h : ∀ d ∈ whole ++ fraction, d < 10) (hne : whole ≠ [])
    (hm : ∀ c ∈ mark.head?, c = 'e') : ¬ HasRadix (pointed whole fraction mark) := by
  rintro ⟨c, digits, radix, heq, hr⟩
  obtain ⟨d, whole, rfl⟩ := List.exists_cons_of_ne_nil hne
  have htail := (List.cons.inj heq).2
  suffices hnone : radix? c = none by
    rw [hnone] at hr
    cases hr
  cases whole with
  | cons d' whole =>
    have hd := isDecimalDigit_digitText h d'.digitChar (by simp [digitText])
    rw [← (List.cons.inj htail).1]
    exact radix?_of_isDecimalDigit hd
  | nil =>
    cases fraction with
    | cons d' fraction =>
      rw [← (List.cons.inj htail).1]
      rfl
    | nil =>
      cases mark with
      | nil => cases htail
      | cons c' rest =>
        rw [← (List.cons.inj htail).1, hm c' rfl]
        rfl

/-! ## Writing -/

/-- The exponent is read back as it is written. -/
theorem exponentPart?_exponentText (exponent : Int) :
    exponentPart? (exponentText exponent) = some exponent := by
  obtain ⟨values, ht, hne, hd, hn⟩ := exists_toDigits (show 1 < 10 by decide) exponent.natAbs
  have hzero : decimalValue? '0' = some 0 := decimalValue?_digitChar (show 0 < 10 by decide)
  have hvalue (zeros : Nat) : integer? decimalValue? 10 (List.replicate zeros '0' ++
      decimalDigits exponent.natAbs) = some exponent.natAbs := by
    rw [decimalDigits, ht, integer?_of_zeros hzero zeros (map_decimalValue? hd) hne, hn]
  have hpadded : integer? decimalValue? 10 (if (decimalDigits exponent.natAbs).length < 2 then
      '0' :: decimalDigits exponent.natAbs else decimalDigits exponent.natAbs) =
        some exponent.natAbs := by
    split
    · exact hvalue 1
    · exact hvalue 0
  unfold exponentText exponentPart?
  dsimp only
  generalize (if (decimalDigits exponent.natAbs).length < 2 then
    '0' :: decimalDigits exponent.natAbs else decimalDigits exponent.natAbs) = padded at hpadded ⊢
  change exponent? _ = _
  split
  · rw [exponent?, hpadded]
    exact congrArg some (show -(exponent.natAbs : Int) = exponent by omega)
  · rw [exponent?, hpadded]
    exact congrArg some (show (exponent.natAbs : Int) = exponent by omega)

variable {layout : Layout}

theorem digitText_take (values : List Nat) (count : Nat) :
    digitText (values.take count) = (digitText values).take count := List.map_take

theorem digitText_drop (values : List Nat) (count : Nat) :
    digitText (values.drop count) = (digitText values).drop count := List.map_drop

theorem length_digitText (values : List Nat) : (digitText values).length = values.length :=
  List.length_map _

theorem isEmpty_digitText (values : List Nat) : (digitText values).isEmpty = values.isEmpty :=
  List.isEmpty_map

/-- Every layout is a literal of the decimal. -/
theorem exists_pointed (hpoint : layout.keepsPoint = false) (hd : ∀ d ∈ kept, d < 10)
    (hne : kept ≠ []) (hdrop : dropTrailingZeros (digitText values) = digitText kept)
    (exponent : Int) :
    ∃ whole fraction mark power, layout.render ⟨digitText values, exponent⟩ =
        pointed whole fraction mark ∧
      (∀ d ∈ whole ++ fraction, d < 10) ∧ whole ≠ [] ∧ exponentPart? mark = some power ∧
      (∀ c ∈ mark.head?, c = 'e') ∧
      (ofDigits 10 (whole ++ fraction) : ℚ) * 10 ^ (power - fraction.length) =
        ofDigits 10 kept * 10 ^ (exponent + 1 - kept.length) := by
  have hlength : 0 < kept.length := List.length_pos_iff.2 hne
  unfold Layout.render
  dsimp only
  rw [hdrop]
  split
  · -- with an exponent
    refine ⟨kept.take 1, kept.drop 1, exponentText exponent, exponent, ?_, ?_, ?_, ?_, ?_, ?_⟩
    · rw [pointed, digitText_take, digitText_drop, ← List.append_assoc, length_digitText]
      congr 2
      refine if_congr ?_ rfl rfl
      rw [List.isEmpty_iff, List.drop_eq_nil_iff]
    · rwa [List.take_append_drop]
    · exact List.take_eq_nil_iff.not.2 (not_or.2 ⟨Nat.one_ne_zero, hne⟩)
    · exact exponentPart?_exponentText exponent
    · rintro _ ⟨⟩
      rfl
    · rw [List.take_append_drop, List.length_drop]
      congr 2
      omega
  · split
    · -- a fraction of one
      refine ⟨[0], List.replicate (-exponent - 1).toNat 0 ++ kept, [], 0, ?_, ?_, ?_, rfl, ?_, ?_⟩
      · rw [pointed, digitText_append, digitText_zeros, List.append_nil, if_neg (by simp [hne])]
        rfl
      · refine List.forall_mem_append.2 ⟨by simp, List.forall_mem_append.2 ⟨fun d hm => ?_, hd⟩⟩
        rw [List.eq_of_mem_replicate hm]
        decide
      · exact List.cons_ne_nil _ _
      · rintro _ ⟨⟩
      · have hvalue := ofDigits_zeros 10 ((-exponent - 1).toNat + 1) kept
        rw [List.replicate_succ, List.cons_append] at hvalue
        rw [List.singleton_append, hvalue, List.length_append, List.length_replicate]
        congr 2
        omega
    · -- a point among the digits or after them
      refine ⟨kept.take (exponent.toNat + 1) ++
        List.replicate (exponent.toNat + 1 - kept.length) 0, kept.drop (exponent.toNat + 1), [], 0,
        ?_, ?_, ?_, rfl, ?_, ?_⟩
      · rw [pointed, digitText_append, digitText_take, digitText_drop, digitText_zeros,
          length_digitText, List.append_nil, Layout.fraction, hpoint, ← digitText_drop,
          isEmpty_digitText]
        rfl
      · refine List.forall_mem_append.2 ⟨List.forall_mem_append.2 ⟨fun d hm => ?_, fun d hm => ?_⟩,
          fun d hm => hd d (List.mem_of_mem_drop hm)⟩
        · exact hd d (List.mem_of_mem_take hm)
        · rw [List.eq_of_mem_replicate hm]
          decide
      · refine fun hnil => hne ?_
        exact (List.take_eq_nil_iff.1 (List.append_eq_nil_iff.1 hnil).1).resolve_left (by omega)
      · rintro _ ⟨⟩
      · rcases Nat.le_total kept.length (exponent.toNat + 1) with hle | hge
        · have hpower : exponent + 1 - kept.length = (exponent.toNat + 1 - kept.length : Nat) := by
            omega
          rw [List.take_of_length_le hle, List.drop_of_length_le hle, List.append_nil,
            ofDigits_append_zeros, hpower, zpow_natCast]
          simp
        · have hpower : (0 : Int) - (kept.drop (exponent.toNat + 1)).length =
              exponent + 1 - kept.length := by
            rw [List.length_drop]
            omega
          rw [Nat.sub_eq_zero_of_le hge, List.replicate_zero, List.append_nil,
            List.take_append_drop, hpower]

/-- The text of a decimal is a literal that denotes it. -/
theorem ofText?_render {places digits : Nat} (hpoint : layout.keepsPoint = false) (hp : 0 < places)
    (hlo : 10 ^ (places - 1) ≤ digits) (hhi : digits < 10 ^ places) (exponent : Int) :
    ∃ s, ¬ HasRadix (layout.render ⟨decimalDigits digits, exponent⟩) ∧
      Scientific.ofText? (layout.render ⟨decimalDigits digits, exponent⟩) = some s ∧
      (s.digits : ℚ) * 10 ^ s.power = digits * lastPlace places exponent := by
  obtain ⟨values, ht, -, hd, hn⟩ := exists_toDigits (show 1 < 10 by decide) digits
  obtain ⟨kept, zeros, rfl, hdrop⟩ := exists_kept hd
  have hkept : ∀ d ∈ kept, d < 10 := (List.forall_mem_append.1 hd).1
  rw [ofDigits_append_zeros] at hn
  have hne : kept ≠ [] := by
    rintro rfl
    have hpos : 0 < digits := Nat.lt_of_lt_of_le (by positivity) hlo
    have hzero : digits = 0 := hn.symm.trans (Nat.zero_mul _)
    omega
  have hlength : kept.length + zeros = places := by
    rw [← length_decimalDigits_eq hp hlo hhi, decimalDigits, ht, List.length_map,
      List.length_append, List.length_replicate]
  obtain ⟨whole, fraction, mark, power, hrender, hparts, hwhole, hpower, hmark, hvalue⟩ :=
    exists_pointed hpoint hkept hne hdrop exponent
  have htext : decimalDigits digits = digitText (kept ++ List.replicate zeros 0) := ht
  rw [htext, hrender]
  refine ⟨_, not_hasRadix_pointed hparts hwhole hmark,
    ofText?_pointed hparts (List.append_ne_nil_of_left_ne_nil hwhole _) hpower hmark, ?_⟩
  rw [hvalue, ← hn, lastPlace, Nat.cast_mul, Nat.cast_pow, Nat.cast_ofNat, mul_assoc,
    ← zpow_natCast, ← zpow_add₀ (by norm_num)]
  congr 2
  omega

end FormulaScript.Number
