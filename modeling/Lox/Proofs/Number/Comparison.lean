import Lox.Number
import Mathlib

/-!
# Comparison of numbers

Equality of numbers is defined on their bits. A double is compared by its bits, too, once all NaNs are
made the same and the two zeros are let equal each other; so the equality of numbers is the comparison of
doubles, with NaN made equal to itself.
-/

namespace Lox

open Float.Model Float.Model.UnpackedFloat

namespace Number

variable {x y : Number}

/-- The bits of a number as a double has them. -/
abbrev word (x : Number) : BitVec Format.binary64.numBits := x.bits.toBitVec

/-! ### Not a number -/

theorem toNat_unpackExponent (x : Number) :
    (unpackExponent x.word).toNat = x.bits.toNat / 2 ^ 52 % 2 ^ 11 := by
  simp [unpackExponent, BitVec.extractLsb, BitVec.extractLsb'_toNat, Nat.shiftRight_eq_div_pow]

theorem toNat_unpackMantissa (x : Number) :
    (unpackMantissa x.word).toNat = x.bits.toNat % 2 ^ 52 := by
  simp [unpackMantissa, BitVec.extractLsb, BitVec.extractLsb'_toNat]

/-- The magnitudes above infinity are those with a full exponent and some bit of the significand. -/
theorem isNaNBits_word (x : Number) : isNaNBits x.word = x.isNaN := by
  have hfull : (-1#11).toNat = 2047 := rfl
  have hempty : (0#52).toNat = 0 := rfl
  have hlt := x.bits.toNat_lt
  have hfields : unpackExponent x.word = -1#11 ∧ unpackMantissa x.word ≠ 0#52 ↔
      infinityMagnitude < x.magnitude := by
    rw [← BitVec.toNat_inj, ne_eq, ← BitVec.toNat_inj, toNat_unpackExponent, toNat_unpackMantissa,
      hfull, hempty, magnitude, infinityMagnitude, Nat.pow_eq, Nat.pow_eq]
    omega
  exact decide_eq_decide.2 hfields

/-- A double keeps the bits of a number that is not NaN. -/
theorem toBits_toFloat (x : Number) : x.toFloat.toBits.toBitVec =
    if x.isNaN = true then packedNaN Format.binary64 else x.word := by
  have hbits := pack_unpack x.word
  rwa [isNaNBits_word] at hbits

theorem toFloat_eq_nan_iff : x.toFloat = Float.nan ↔ x.isNaN = true := by
  have hnan : Float.nan.toBits.toBitVec = packedNaN Format.binary64 := rfl
  rw [← Float.toBits_inj, ← UInt64.toBitVec_inj, toBits_toFloat, hnan]
  cases hx : x.isNaN with
  | true => simp
  | false =>
    refine iff_of_false (fun hword => ?_) Bool.false_ne_true
    rw [if_neg Bool.false_ne_true] at hword
    have hpacked := isNaNBits_word x
    rw [hword, isNaNBits_packedNaN, hx] at hpacked
    cases hpacked

theorem isNaN_toFloat (x : Number) : x.toFloat.isNaN = x.isNaN := by
  rw [Float.isNaN_eq_decide_eq_nan, Bool.eq_iff_iff, decide_eq_true_iff, toFloat_eq_nan_iff]

/-! ### Equality -/

/-- Numbers that are not NaN are the same if they are the same double. -/
theorem eq_of_toFloat_eq (hx : x.isNaN = false) (hy : y.isNaN = false)
    (h : x.toFloat = y.toFloat) : x = y := by
  have hbits := congrArg (fun f : Float => f.toBits.toBitVec) h
  simp only [toBits_toFloat, hx, hy, if_neg Bool.false_ne_true] at hbits
  cases x
  cases y
  exact congrArg Number.mk (UInt64.toBitVec_inj.1 hbits)

/-- There are two zeros. -/
theorem isZero_iff : x.isZero = true ↔ x = ⟨0⟩ ∨ x = ⟨0x8000000000000000⟩ := by
  constructor
  · intro h
    have hmagnitude : x.bits.toNat % 2 ^ 63 = 0 := of_decide_eq_true h
    have hlt := x.bits.toNat_lt
    have hbits : x.bits.toNat = 0 ∨ x.bits.toNat = 2 ^ 63 := by omega
    exact hbits.imp (fun hb => congrArg Number.mk (UInt64.toNat_inj.1 hb))
      fun hb => congrArg Number.mk (UInt64.toNat_inj.1 hb)
  · rintro (rfl | rfl) <;> decide

/-- Two numbers are equal as doubles are when they are the same and not NaN, or both are zero. -/
theorem toFloat_beq_iff : (x.toFloat == y.toFloat) = true ↔
    (x = y ∧ x.isNaN = false) ∨ (x.isZero = true ∧ y.isZero = true) := by
  have hzero : (0 : Float) = toFloat ⟨0⟩ := rfl
  have hminus : (-0 : Float) = toFloat ⟨0x8000000000000000⟩ := rfl
  rw [Float.beq_iff_ne_nan_and_eq, ne_eq, ne_eq, toFloat_eq_nan_iff, toFloat_eq_nan_iff,
    Bool.not_eq_true, Bool.not_eq_true, hminus, hzero]
  constructor
  · rintro ⟨hx, hy, h | ⟨hx', hy'⟩ | ⟨hx', hy'⟩⟩
    · exact .inl ⟨eq_of_toFloat_eq hx hy h, hx⟩
    · obtain rfl := eq_of_toFloat_eq hx (by decide) hx'
      obtain rfl := eq_of_toFloat_eq hy (by decide) hy'
      exact .inr (by decide)
    · obtain rfl := eq_of_toFloat_eq hx (by decide) hx'
      obtain rfl := eq_of_toFloat_eq hy (by decide) hy'
      exact .inr (by decide)
  · rintro (⟨rfl, hx⟩ | ⟨hx, hy⟩)
    · exact ⟨hx, hx, .inl rfl⟩
    · refine ⟨isNaN_eq_false_of_isZero hx, isNaN_eq_false_of_isZero hy, ?_⟩
      rcases isZero_iff.1 hx with rfl | rfl <;> rcases isZero_iff.1 hy with rfl | rfl <;> simp

/-- The equality of numbers is that of doubles, with NaN made equal to itself. -/
theorem equal_eq (x y : Number) :
    x.equal y = (x.toFloat == y.toFloat || (x.toFloat.isNaN && y.toFloat.isNaN)) := by
  rw [Bool.eq_iff_iff, equal, isNaN_toFloat, isNaN_toFloat]
  simp only [Bool.or_eq_true, Bool.and_eq_true, decide_eq_true_eq, toFloat_beq_iff]
  constructor
  · rintro ((rfl | hzero) | hnan)
    · cases hx : x.isNaN with
      | false => exact .inl (.inl ⟨rfl, rfl⟩)
      | true => exact .inr ⟨rfl, rfl⟩
    · exact .inl (.inr hzero)
    · exact .inr hnan
  · rintro ((⟨rfl, -⟩ | hzero) | hnan)
    · exact .inl (.inl rfl)
    · exact .inl (.inr hzero)
    · exact .inr hnan

end Number

end Lox
