import Lox.Proofs.Number.Display

/-!
# Numbers in printed trees

A number that a numeral stands for has no sign and is not NaN. If it is finite, its text in a printed tree
is a numeral for it, so no two of these numbers are printed alike.
-/

namespace Lox

namespace Number

variable {x : Number}

theorem isNegative_ofMagnitude {n : Nat} (h : n < 2 ^ 63) : (ofMagnitude n).isNegative = false := by
  have habs := (ofMagnitude n).isNegative_abs
  rwa [abs, magnitude_ofMagnitude h] at habs

/-- Rounding a fraction gives no sign and no NaN. -/
theorem nearest_plain (num den : Nat) :
    (nearest num den).isNegative = false ∧ (nearest num den).isNaN = false := by
  obtain ⟨n, hn, hnearest⟩ : ∃ n ≤ infinityMagnitude, nearest num den = ofMagnitude n :=
    ⟨_, Nat.min_le_right _ _, rfl⟩
  have hlt : n < 2 ^ 63 := hn.trans_lt infinityMagnitude_lt
  rw [hnearest]
  refine ⟨isNegative_ofMagnitude hlt, decide_eq_false ?_⟩
  rw [magnitude_ofMagnitude hlt]
  exact Nat.not_lt_of_le hn

/-- A whole number with one decimal is a numeral for it. -/
theorem lexeme_wholeText (h : x.isIntegral = true) (hsign : x.isNegative = false) :
    Lexeme (x.wholeText ++ ".0").toList (.number x) := by
  obtain ⟨hfinite, hdvd⟩ := Bool.and_eq_true_iff.1 h
  have hunits : x.units / unitsPerOne * unitsPerOne = x.units :=
    Nat.div_mul_cancel (Nat.dvd_of_mod_eq_zero (of_decide_eq_true hdvd))
  generalize hn : x.units / unitsPerOne = n at hunits
  have htext : x.wholeText ++ ".0" = Decimal.positional ⟨n * 10, .negSucc 0⟩ := by
    have hwhole : n * 10 / Nat.pow 10 1 = n := Nat.mul_div_cancel n (by decide)
    have hfraction : n * 10 % Nat.pow 10 1 = 0 := Nat.mul_mod_left n 10
    rw [wholeText, hn, Decimal.positional, hwhole, hfraction, String.append_assoc]
    rfl
  have hread : Decimal.read ⟨n * 10, .negSucc 0⟩ = x := by
    rw [Decimal.read_negSucc, nearest_of_units hfinite (by decide), abs_of_isNegative_eq_false hsign]
    rw [← hunits, Nat.mul_right_comm]
    rfl
  have hlexeme := Decimal.lexeme_positional ⟨n * 10, .negSucc 0⟩
  rwa [← htext, hread] at hlexeme

/-- A finite number without a sign is displayed as a numeral for it. -/
theorem lexeme_display (h : x.isFinite = true) (hsign : x.isNegative = false) :
    Lexeme x.display.toList (.number x) := by
  have hlexeme := Decimal.lexeme_positional (x.shortest .up)
  rw [read_shortest h hsign] at hlexeme
  rwa [display_of_isFinite h, hsign, if_neg Bool.false_ne_true, String.empty_append,
    abs_of_isNegative_eq_false hsign]

/-- In a printed tree, too, it is a numeral for the number. -/
theorem lexeme_treeText (h : x.isFinite = true) (hsign : x.isNegative = false) :
    Lexeme x.treeText.toList (.number x) := by
  have hnumber : x.isNaN = false := decide_eq_false (Nat.not_lt_of_lt (of_decide_eq_true h))
  rw [treeText, signed, hnumber, hsign, h, if_neg Bool.false_ne_true, if_neg Bool.false_ne_true,
    if_pos rfl, String.empty_append, abs_of_isNegative_eq_false hsign]
  cases hwhole : x.isIntegral with
  | true => exact lexeme_wholeText hwhole hsign
  | false => exact lexeme_display h hsign

end Number

/-- What a numeral stands for has no sign and is not NaN. -/
theorem Lexeme.number_plain {text : List Char} {x : Number} (h : Lexeme text (.number x)) :
    x.isNegative = false ∧ x.isNaN = false := by
  have hread (d : Decimal) : d.read.isNegative = false ∧ d.read.isNaN = false := by
    obtain ⟨digits, n | n⟩ := d
    · exact Number.nearest_plain _ _
    · exact Number.nearest_plain _ _
  cases h with
  | whole => exact hread _
  | fraction => exact hread _

end Lox
