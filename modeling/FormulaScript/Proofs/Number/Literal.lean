import FormulaScript.Number.Literal
import Mathlib

/-!
# Literals equal themselves

A double equals itself unless it is a NaN, and no literal stands for one.
-/

namespace FormulaScript.Number

open Float.Model UnpackedFloat

/-- A word up to that of infinity stands for a number. -/
theorem ofBits_ne_nan {word : Nat} (h : word ≤ infinityBits) :
    Float.ofBits (UInt64.ofNat word) ≠ Float.nan := by
  intro heq
  have h : word ≤ 2047 * 2 ^ 52 := h
  have hw : (UInt64.ofNat word).toBitVec.toNat = word := by
    rw [UInt64.toNat_toBitVec, UInt64.toNat_ofNat_of_lt' (Nat.lt_of_le_of_lt h (by decide))]
  have hp : pack Format.binary64 (unpack Format.binary64 (UInt64.ofNat word).toBitVec) =
      packedNaN Format.binary64 := congrArg (·.toBits.toBitVec) heq
  rw [pack_unpack] at hp
  split at hp
  · next hn =>
    obtain ⟨he, hm⟩ := of_decide_eq_true hn
    refine hm (BitVec.eq_of_toNat_eq ?_)
    have he : word >>> 52 % 2 ^ 11 = 2 ^ 11 - 1 := by
      simpa [unpackExponent, hw] using congrArg BitVec.toNat he
    have hm : (@unpackMantissa Format.binary64 (UInt64.ofNat word).toBitVec).toNat =
        word % 2 ^ 52 := by
      simp [unpackMantissa, hw]
    rw [Nat.shiftRight_eq_div_pow] at he
    rw [hm]
    show word % 2 ^ 52 = 0
    omega
  · have hn : (packedNaN Format.binary64).toNat = 2047 * 2 ^ 52 + 2 ^ 51 := by decide
    have hp := congrArg BitVec.toNat hp
    omega

theorem ofBits_beq_self {word : Nat} (h : word ≤ infinityBits) :
    Float.ofBits (UInt64.ofNat word) == Float.ofBits (UInt64.ofNat word) :=
  Float.beq_self_iff.2 (ofBits_ne_nan h)

theorem nearest_beq_self (num den : Nat) : nearest num den == nearest num den :=
  ofBits_beq_self (Nat.min_le_right _ _)

theorem infinity_beq_self : infinity == infinity := ofBits_beq_self (Nat.le_refl _)

theorem zero_beq_self : (0.0 : Float) == 0.0 := by decide +kernel

theorem one_beq_self : (1.0 : Float) == 1.0 := by decide +kernel

theorem minus_one_beq_self : (-1.0 : Float) == -1.0 := by decide +kernel

theorem Scientific.toFloat_beq_self (s : Scientific) : s.toFloat == s.toFloat := by
  unfold Scientific.toFloat
  split
  · exact zero_beq_self
  · split
    · split
      · exact infinity_beq_self
      · exact nearest_beq_self _ _
    · split
      · exact zero_beq_self
      · exact nearest_beq_self _ _

theorem beq_self_of_decode? (h : decode? text = some value) : value == value := by
  have decimal (h : (Scientific.ofText? text).map Scientific.toFloat = some value) :
      value == value := by
    obtain ⟨s, -, rfl⟩ := Option.map_eq_some_iff.1 h
    exact s.toFloat_beq_self
  unfold decode? at h
  dsimp only at h
  split at h
  · split at h
    · obtain ⟨n, -, rfl⟩ := Option.map_eq_some_iff.1 h
      exact nearest_beq_self _ _
    · exact decimal h
  · exact decimal h

end FormulaScript.Number
