import Lox.Number.Decimal
import Mathlib.Tactic.Ring

/-!
# Exact rounding

Rounding takes a fraction that is a double to that double, and it only looks at the value of the fraction.
So a decimal reads the same with and without zeros at its end.

## Implementation notes

A significand below `2 ^ 53` with a scale stands for one double if the significand is at least `2 ^ 52` or
the scale is zero: `Canonical`. All that is said here is said of absolute values.
-/

namespace Lox

namespace Number

/-! ### Magnitudes -/

/-- The significand and the scale of a finite double. -/
structure Canonical (significand scale : Nat) : Prop where
  lt : significand < 2 ^ 53
  normal : scale = 0 ∨ 2 ^ 52 ≤ significand
  finite : scale * 2 ^ 52 + significand < infinityMagnitude

theorem infinityMagnitude_lt : infinityMagnitude < 2 ^ 63 := by decide

theorem magnitude_ofMagnitude {n : Nat} (h : n < 2 ^ 63) : (ofMagnitude n).magnitude = n := by
  have hnat : (UInt64.ofNat n).toNat = n := by
    rw [UInt64.toNat_ofNat', Nat.mod_eq_of_lt (by omega)]
  rw [magnitude, ofMagnitude, hnat, Nat.pow_eq, Nat.mod_eq_of_lt h]

theorem ofMagnitude_magnitude {x : Number} (h : x.isNegative = false) :
    ofMagnitude x.magnitude = x := by
  have hlt : x.bits.toNat < 2 ^ 63 := by simpa [isNegative] using h
  rw [magnitude, Nat.pow_eq, Nat.mod_eq_of_lt hlt, ofMagnitude, UInt64.ofNat_toNat]

theorem magnitude_lt (x : Number) : x.magnitude < 2 ^ 63 := Nat.mod_lt _ (by decide)

theorem magnitude_abs (x : Number) : x.abs.magnitude = x.magnitude :=
  magnitude_ofMagnitude x.magnitude_lt

theorem isNegative_abs (x : Number) : x.abs.isNegative = false := by
  have hlt := x.magnitude_lt
  have hnat : (UInt64.ofNat x.magnitude).toNat = x.magnitude := by
    rw [UInt64.toNat_ofNat', Nat.mod_eq_of_lt (by omega)]
  simpa [abs, ofMagnitude, isNegative, hnat] using hlt

theorem abs_of_isNegative_eq_false {x : Number} (h : x.isNegative = false) : x.abs = x :=
  ofMagnitude_magnitude h

theorem isFinite_abs (x : Number) : x.abs.isFinite = x.isFinite := by
  rw [isFinite, magnitude_abs, isFinite]

theorem units_abs (x : Number) : x.abs.units = x.units := by
  simp only [units, significand, scale, magnitude_abs]

theorem canonical {x : Number} (h : x.isFinite = true) : Canonical x.significand x.scale := by
  have hfinite : x.magnitude < infinityMagnitude := of_decide_eq_true h
  have heq := x.magnitude_eq
  have hscale : x.scale = x.magnitude / 2 ^ 52 - 1 := rfl
  rw [Nat.pow_eq] at heq
  refine ⟨?_, ?_, heq ▸ hfinite⟩ <;> omega

/-- Only the zeros are no multiple of the smallest positive double. -/
theorem units_eq_zero_iff {x : Number} (h : x.isFinite = true) :
    x.units = 0 ↔ x.isZero = true := by
  have hnormal := (canonical h).normal
  have heq := x.magnitude_eq
  have hpow := Nat.two_pow_pos x.scale
  rw [units, Nat.mul_eq_zero, Nat.pow_eq, or_iff_left hpow.ne', isZero, decide_eq_true_eq, heq,
    Nat.pow_eq]
  omega

/-- The double of a significand and a scale has them. -/
theorem units_ofMagnitude {s k : Nat} (h : Canonical s k) :
    (ofMagnitude (k * 2 ^ 52 + s)).units = s * 2 ^ k := by
  have hlt := h.lt
  have hmagnitude : (ofMagnitude (k * 2 ^ 52 + s)).magnitude = k * 2 ^ 52 + s :=
    magnitude_ofMagnitude (h.finite.trans infinityMagnitude_lt)
  have hscale : (k * 2 ^ 52 + s) / 2 ^ 52 - 1 = k := by
    rcases h.normal with rfl | hs <;> omega
  simp only [units, significand, scale, hmagnitude, Nat.pow_eq, hscale, Nat.add_sub_cancel_left]

/-! ### Rounding -/

theorem roundHalfEven_mul (n : Nat) {den : Nat} (h : 0 < den) : roundHalfEven (n * den) den = n := by
  simp [roundHalfEven, Nat.mul_div_cancel n h, h]

theorem roundHalfEven_mul_mul (num den : Nat) {k : Nat} (h : 0 < k) :
    roundHalfEven (num * k) (den * k) = roundHalfEven num den := by
  have htwice : 2 * (num % den * k) = 2 * (num % den) * k := (Nat.mul_assoc ..).symm
  simp only [roundHalfEven, Nat.mul_div_mul_right num den h, Nat.mul_mod_mul_right, htwice,
    Nat.mul_lt_mul_right h, Nat.mul_left_inj h.ne']

theorem log2_mul_two_pow {s k : Nat} (h : Canonical s k) : (s * 2 ^ k).log2 + 1 - 53 = k := by
  rcases h.normal with rfl | hs
  · rcases Nat.eq_zero_or_pos s with rfl | hpos
    · rfl
    · have hlog := (Nat.log2_lt hpos.ne').2 h.lt
      rw [Nat.pow_zero, Nat.mul_one]
      omega
  · have hpos : s * 2 ^ k ≠ 0 := (Nat.mul_pos (by omega) (Nat.two_pow_pos k)).ne'
    have hlog : (s * 2 ^ k).log2 = 52 + k := by
      rw [Nat.log2_eq_iff hpos, Nat.add_right_comm, Nat.pow_add, Nat.pow_add]
      exact ⟨Nat.mul_le_mul_right _ hs, Nat.mul_lt_mul_of_pos_right h.lt (Nat.two_pow_pos k)⟩
    omega

/-- A fraction that is a double is rounded to it. -/
theorem nearest_of_canonical {s k num den : Nat} (h : Canonical s k) (hden : 0 < den)
    (heq : num * unitsPerOne = s * 2 ^ k * den) :
    nearest num den = ofMagnitude (k * 2 ^ 52 + s) := by
  have hquotient : s * 2 ^ k * den / den = s * 2 ^ k := Nat.mul_div_cancel _ hden
  have hround : roundHalfEven (s * 2 ^ k * den) (den * 2 ^ k) = s := by
    rw [Nat.mul_right_comm, Nat.mul_assoc]
    exact roundHalfEven_mul s (Nat.mul_pos hden (Nat.two_pow_pos k))
  simp only [nearest, heq, hquotient, log2_mul_two_pow h, Nat.pow_eq, hround,
    Nat.min_eq_left h.finite.le]

/-- A fraction of the value of a finite number is rounded to the number without its sign. -/
theorem nearest_of_units {x : Number} (h : x.isFinite = true) {num den : Nat} (hden : 0 < den)
    (heq : num * unitsPerOne = x.units * den) : nearest num den = x.abs := by
  rw [nearest_of_canonical (canonical h) hden heq, abs, x.magnitude_eq, Nat.pow_eq]

/-- Rounding looks at the value of a fraction only. -/
theorem nearest_mul_mul (num den : Nat) {k : Nat} (h : 0 < k) :
    nearest (num * k) (den * k) = nearest num den := by
  have hscaled : num * k * unitsPerOne = num * unitsPerOne * k := Nat.mul_right_comm ..
  have hden : ∀ n, den * k * n = den * n * k := fun n => Nat.mul_right_comm ..
  simp only [nearest, hscaled, Nat.mul_div_mul_right _ _ h, hden, roundHalfEven_mul_mul _ _ h]

theorem nearest_zero (den : Nat) : nearest 0 den = ⟨0⟩ := by
  have hden : 0 < den ∨ 0 = den := (Nat.eq_zero_or_pos den).symm.imp_right Eq.symm
  simp [nearest, roundHalfEven, ofMagnitude, hden]

end Number

namespace Decimal

open Number

theorem read_ofNat (digits n : Nat) : read ⟨digits, n⟩ = nearest (digits * 10 ^ n) 1 := rfl

theorem read_negSucc (digits n : Nat) :
    read ⟨digits, .negSucc n⟩ = nearest digits (10 ^ (n + 1)) := rfl

/-- A zero at the end of the digits is one power of ten. -/
theorem read_mul_ten (digits : Nat) (exponent : Int) :
    read ⟨digits * 10, exponent⟩ = read ⟨digits, exponent + 1⟩ := by
  rcases exponent with n | n
  · have hexponent : Int.ofNat n + 1 = (n + 1 : Nat) := rfl
    rw [hexponent, read_ofNat, Int.ofNat_eq_natCast, read_ofNat, Nat.pow_succ]
    ring_nf
  · rw [read_negSucc, Nat.pow_succ, nearest_mul_mul _ _ (by decide)]
    cases n with
    | zero =>
      have hexponent : Int.negSucc 0 + 1 = (0 : Nat) := rfl
      rw [hexponent, read_ofNat, Nat.pow_zero, Nat.mul_one]
    | succ n =>
      have hexponent : Int.negSucc (n + 1) + 1 = Int.negSucc n := rfl
      rw [hexponent, read_negSucc]

theorem read_zero (exponent : Int) : read ⟨0, exponent⟩ = ⟨0⟩ := by
  rcases exponent with n | n
  · rw [Int.ofNat_eq_natCast, read_ofNat, Nat.zero_mul, nearest_zero]
  · rw [read_negSucc, nearest_zero]

/-- Zeros at the end of the digits make no difference. -/
theorem read_trimmed (d : Decimal) : d.trimmed.read = d.read := by
  fun_induction trimmed d with
  | case1 d h =>
    obtain ⟨digits, exponent⟩ := d
    obtain rfl : digits = 0 := h
    rw [read_zero, read_zero]
  | case2 d hne hten ih =>
    obtain ⟨digits, exponent⟩ := d
    have hdigits : digits / 10 * 10 = digits := Nat.div_mul_cancel (Nat.dvd_of_mod_eq_zero hten)
    rw [ih, ← read_mul_ten, hdigits]
  | case3 => rfl

end Decimal

end Lox
