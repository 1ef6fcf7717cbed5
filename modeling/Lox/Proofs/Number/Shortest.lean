import Lox.Number.Text
import Lox.Proofs.Number.Rounding

/-!
# Shortest decimals

The decimal that is found for a number reads back as the number, and for a whole number below `10 ^ 15` it
has all its digits. So such a number is displayed by writing its whole part as an integer.

## Implementation notes

A decimal with fewer digits than a whole number needs lies on a coarser grid. It is another whole number
below `2 ^ 53`, and such numbers are doubles, so it reads back as itself.
-/

namespace Lox

namespace Number

variable {x : Number} {tie : Tie} {d : Decimal}

/-! ### Reading back -/

theorem read_of_onGrid? {grid : Int} (h : x.onGrid? tie grid = some d) : d.read = x := by
  simp only [onGrid?] at h
  split at h
  · next hlower =>
    cases h
    exact hlower.1
  · split at h
    · next hupper =>
      cases h
      exact hupper
    · cases h

/-- The smallest positive double has `1074` digits after the point, all of which `exactDecimal` writes. -/
theorem exists_exactDecimal (x : Number) : ∃ e : Nat, unitsPerOne = 2 ^ (e + 1) ∧
    x.exactDecimal = Decimal.trimmed ⟨x.units * 5 ^ (e + 1), .negSucc e⟩ := by
  have hexponent : (-1074 : Int) = Int.negSucc 1073 := rfl
  have hsucc : 1074 = 1073 + 1 := rfl
  unfold exactDecimal unitsPerOne
  rw [hexponent, hsucc]
  -- The powers are too large to be computed here, and no proof needs them.
  generalize 1073 = e
  exact ⟨e, rfl, rfl⟩

/-- With all its digits a number reads back. -/
theorem read_exactDecimal (h : x.isFinite = true) : x.exactDecimal.read = x.abs := by
  obtain ⟨e, hunits, hexact⟩ := x.exists_exactDecimal
  rw [hexact, Decimal.read_trimmed, Decimal.read_negSucc]
  refine nearest_of_units h (Nat.pow_pos (by decide)) ?_
  have hten : (10 : Nat) ^ (e + 1) = 2 ^ (e + 1) * 5 ^ (e + 1) := Nat.mul_pow 2 5 (e + 1)
  rw [hten, hunits, Nat.mul_assoc, Nat.mul_comm (5 ^ (e + 1))]

/-- The decimal that is found for a finite number without a sign reads back as the number. -/
theorem read_shortest (h : x.isFinite = true) (hsign : x.isNegative = false) :
    (x.shortest tie).read = x := by
  unfold shortest
  split
  · next hzero =>
    have hmagnitude : x.magnitude = 0 := of_decide_eq_true hzero
    rw [Decimal.read_zero, ← ofMagnitude_magnitude hsign, hmagnitude]
    rfl
  · simp only
    cases hfound : (List.range 17).findSome? fun n : Nat => x.onGrid? tie (x.decimalOrder - 1 - n) with
    | some d =>
      obtain ⟨n, -, hn⟩ := List.exists_of_findSome?_eq_some hfound
      exact read_of_onGrid? hn
    | none =>
      rw [Option.getD_none, read_exactDecimal h, abs_of_isNegative_eq_false hsign]

/-! ### Whole numbers -/

theorem exists_unitsPerOne : ∃ e : Nat, e = 1074 ∧ unitsPerOne = 2 ^ e := by
  unfold unitsPerOne
  generalize 1074 = e
  exact ⟨e, rfl, rfl⟩

theorem unitsPerOne_pos : 0 < unitsPerOne := by
  obtain ⟨e, -, hunits⟩ := exists_unitsPerOne
  exact hunits ▸ Nat.two_pow_pos e

/-- Whole numbers below `2 ^ 53` are doubles. -/
theorem units_nearest {n : Nat} (hpos : 0 < n) (hlt : n < 2 ^ 53) :
    (nearest n 1).units = n * unitsPerOne := by
  obtain ⟨e, he, hunits⟩ := exists_unitsPerOne
  have hlog : n.log2 < 53 := (Nat.log2_lt hpos.ne').2 hlt
  obtain ⟨hlow, hhigh⟩ := (Nat.log2_eq_iff hpos.ne').1 (rfl : n.log2 = n.log2)
  have hvalue : n * unitsPerOne = n * 2 ^ (52 - n.log2) * 2 ^ (1022 + n.log2) := by
    rw [Nat.mul_assoc, ← Nat.pow_add, show 52 - n.log2 + (1022 + n.log2) = e by omega, hunits]
  have hcanonical : Canonical (n * 2 ^ (52 - n.log2)) (1022 + n.log2) := by
    have hupper := Nat.mul_lt_mul_of_pos_right hhigh (Nat.two_pow_pos (52 - n.log2))
    have hlower := Nat.mul_le_mul_right (2 ^ (52 - n.log2)) hlow
    rw [← Nat.pow_add, show n.log2 + 1 + (52 - n.log2) = 53 by omega] at hupper
    rw [← Nat.pow_add, show n.log2 + (52 - n.log2) = 52 by omega] at hlower
    have hinfinity : infinityMagnitude = 2047 * 2 ^ 52 := rfl
    exact ⟨hupper, .inr hlower, by omega⟩
  rw [nearest_of_canonical hcanonical Nat.one_pos (by rw [Nat.mul_one, hvalue]),
    units_ofMagnitude hcanonical, hvalue]

/-- A finite number without a sign that is this whole number. -/
structure IsWhole (x : Number) (n : Nat) : Prop where
  finite : x.isFinite = true
  unsigned : x.isNegative = false
  units_eq : x.units = n * unitsPerOne

variable {n k : Nat}

/-- Only the digits of a whole number read back as the number. -/
theorem IsWhole.nearest_eq_iff (h : x.IsWhole n) {m : Nat} (hpos : 0 < m) (hlt : m < 2 ^ 53) :
    nearest m 1 = x ↔ m = n := by
  constructor
  · intro heq
    have hunits := units_nearest hpos hlt
    rw [heq, h.units_eq] at hunits
    exact (Nat.eq_of_mul_eq_mul_right unitsPerOne_pos hunits).symm
  · rintro rfl
    rw [nearest_of_units h.finite Nat.one_pos (by rw [h.units_eq, Nat.mul_one]),
      abs_of_isNegative_eq_false h.unsigned]

/-- On a grid of whole numbers there is only the number itself. -/
theorem IsWhole.onGrid?_eq (h : x.IsWhole n) (hlt : n < 10 ^ 15) (hk : 10 ^ k ≤ n) :
    x.onGrid? tie (k : Int) =
      if 10 ^ k ∣ n then some (Decimal.trimmed ⟨n / 10 ^ k, k⟩) else none := by
  have hten : 0 < 10 ^ k := Nat.pow_pos (by decide)
  have hquotient : x.units * Nat.pow 10 (-(k : Int)).toNat /
      (unitsPerOne * Nat.pow 10 (k : Int).toNat) = n / 10 ^ k := by
    have hzero : (-(k : Int)).toNat = 0 := by omega
    rw [hzero, Int.toNat_natCast, Nat.pow_eq, Nat.pow_eq, Nat.pow_zero, Nat.mul_one, h.units_eq,
      Nat.mul_comm unitsPerOne, Nat.mul_div_mul_right _ _ unitsPerOne_pos]
  have hfloor : n / 10 ^ k * 10 ^ k ≤ n := Nat.div_mul_le_self n (10 ^ k)
  have hpos : 0 < n / 10 ^ k := Nat.div_pos hk hten
  have hlower : (Decimal.trimmed ⟨n / 10 ^ k, k⟩).read = x ↔ 10 ^ k ∣ n := by
    rw [Decimal.read_trimmed, Decimal.read_ofNat,
      h.nearest_eq_iff (Nat.mul_pos hpos hten) (by omega)]
    exact ⟨fun heq => heq ▸ Nat.dvd_mul_left _ _, Nat.div_mul_cancel⟩
  have hupper : (Decimal.trimmed ⟨n / 10 ^ k + 1, k⟩).read ≠ x := by
    have hsucc : (n / 10 ^ k + 1) * 10 ^ k = n / 10 ^ k * 10 ^ k + 10 ^ k := Nat.succ_mul _ _
    have hceiling : n < n / 10 ^ k * 10 ^ k + 10 ^ k := Nat.lt_div_mul_add hten
    have hnext : 0 < (n / 10 ^ k + 1) * 10 ^ k := by omega
    rw [Decimal.read_trimmed, Decimal.read_ofNat, ne_eq, h.nearest_eq_iff hnext (by omega)]
    omega
  simp only [onGrid?, hquotient, hlower, hupper, ne_eq, not_false_eq_true, or_true, and_true,
    if_false]

/-- The first hit of a search is not behind another one. -/
theorem exists_findSome?_range {α : Type} {f : Nat → Option α} {m : Nat} (hm : m < n)
    (h : (f m).isSome = true) : ∃ i ≤ m, ∃ a, f i = some a ∧ (List.range n).findSome? f = some a := by
  obtain ⟨more, rfl⟩ := Nat.exists_eq_add_of_lt hm
  cases hfound : (List.range (m + 1)).findSome? f with
  | none =>
    have hnone := List.findSome?_eq_none_iff.1 hfound m (List.mem_range.2 (Nat.lt_succ_self m))
    rw [hnone] at h
    cases h
  | some a =>
    obtain ⟨i, hi, hfi⟩ := List.exists_of_findSome?_eq_some hfound
    refine ⟨i, Nat.le_of_lt_succ (List.mem_range.1 hi), a, hfi, ?_⟩
    rw [Nat.add_right_comm, List.range_add, List.findSome?_append, hfound]
    rfl

theorem digitCount_bounds (hpos : 0 < n) : 10 ^ (digitCount n - 1) ≤ n ∧ 0 < digitCount n := by
  have hlength : 0 < digitCount n := Nat.length_toDigits_pos
  refine ⟨?_, hlength⟩
  rcases Nat.eq_zero_or_pos (digitCount n - 1) with hone | hmore
  · rw [hone]
    exact hpos
  · have hiff := Nat.length_toDigits_le_iff (b := 10) (n := n) (by decide) hmore
    rw [← Nat.not_lt, ← hiff, digitCount]
    rw [digitCount] at hlength
    omega

/-- A whole number is written with all digits but zeros at the end. -/
theorem IsWhole.exists_shortest_eq (h : x.IsWhole n) (hpos : 0 < n) (hlt : n < 10 ^ 15) :
    ∃ k : Nat, 10 ^ k ∣ n ∧ x.shortest tie = Decimal.trimmed ⟨n / 10 ^ k, k⟩ := by
  have horder : x.decimalOrder = digitCount n := by
    have hone : unitsPerOne ≤ x.units := by
      rw [h.units_eq]
      exact Nat.le_mul_of_pos_left _ hpos
    rw [decimalOrder, if_pos hone, h.units_eq, Nat.mul_div_cancel _ unitsPerOne_pos]
  have hnonzero : x.isZero = false := by
    rw [← Bool.not_eq_true, ← units_eq_zero_iff h.finite, h.units_eq]
    exact (Nat.mul_pos hpos unitsPerOne_pos).ne'
  obtain ⟨hlow, hcount⟩ := digitCount_bounds hpos
  have hshort : digitCount n ≤ 15 := (Nat.length_toDigits_le_iff (by decide) (by decide)).2 hlt
  -- The search comes down to the ones at the latest, and goes over grids of whole numbers only.
  have hgrid : ∀ i ≤ digitCount n - 1, x.onGrid? tie (x.decimalOrder - 1 - (i : Nat)) =
      if 10 ^ (digitCount n - 1 - i) ∣ n then
        some (Decimal.trimmed ⟨n / 10 ^ (digitCount n - 1 - i), (digitCount n - 1 - i : Nat)⟩)
      else none := by
    intro i hi
    have hcast : x.decimalOrder - 1 - (i : Nat) = ((digitCount n - 1 - i : Nat) : Int) := by omega
    have hle := Nat.pow_le_pow_right (n := 10) (by decide) (Nat.sub_le (digitCount n - 1) i)
    rw [hcast, h.onGrid?_eq hlt (hle.trans hlow)]
  have hones : (x.onGrid? tie (x.decimalOrder - 1 - (digitCount n - 1 : Nat))).isSome = true := by
    rw [hgrid _ le_rfl, Nat.sub_self, Nat.pow_zero, if_pos (Nat.one_dvd n)]
    rfl
  obtain ⟨i, hi, d, hd, hfound⟩ := exists_findSome?_range (n := 17)
    (f := fun i : Nat => x.onGrid? tie (x.decimalOrder - 1 - i)) (by omega) hones
  rw [hgrid i hi] at hd
  split at hd
  · next hdvd =>
    refine ⟨_, hdvd, ?_⟩
    rw [shortest, hnonzero, if_neg Bool.false_ne_true]
    simp only [hfound, Option.getD_some]
    exact (Option.some.inj hd).symm
  · cases hd

end Number

end Lox
