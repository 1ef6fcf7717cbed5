import Lox.Number

/-!
# Decimals

A decimal is a whole number of digits times a power of ten. `Decimal.read` rounds it to a double,
and `Number.shortest` finds the fewest digits that `read` takes back to the same double. The digits
are tried against `read` itself, so what is found reads back by construction.
-/

namespace Lox

/-- The decimal `digits * 10 ^ exponent`. -/
structure Decimal where
  digits : Nat
  exponent : Int
deriving DecidableEq

namespace Decimal

/-- The double nearest to a decimal. -/
def read : Decimal → Number
  | ⟨digits, .ofNat n⟩ => .nearest (digits * Nat.pow 10 n) 1
  | ⟨digits, .negSucc n⟩ => .nearest digits (Nat.pow 10 (n + 1))

/-- The same decimal without zeros at the end of its digits. -/
def trimmed (d : Decimal) : Decimal :=
  if d.digits = 0 then ⟨0, 0⟩
  else if d.digits % 10 = 0 then trimmed ⟨d.digits / 10, d.exponent + 1⟩
  else d
termination_by d.digits
decreasing_by omega

end Decimal

/-- Which neighbour is taken when a number lies midway between two decimals. -/
inductive Tie where
  | up
  | even
deriving DecidableEq

namespace Number

/-- The number of decimal digits of a natural number. -/
def digitCount (n : Nat) : Nat := (Nat.toDigits 10 n).length

/-- The `p` with `10 ^ (p - 1) ≤ x < 10 ^ p`, for a finite number other than zero. -/
def decimalOrder (x : Number) : Int :=
  if unitsPerOne ≤ x.units then
    digitCount (x.units / unitsPerOne)
  else
    1 - digitCount ((unitsPerOne + x.units - 1) / x.units - 1)

/-- The multiple of `10 ^ grid` that reads back as `x`, the nearer of two. -/
def onGrid? (tie : Tie) (x : Number) (grid : Int) : Option Decimal :=
  let num := x.units * Nat.pow 10 (-grid).toNat
  let den := unitsPerOne * Nat.pow 10 grid.toNat
  let quotient := num / den
  let twice := 2 * (num % den)
  let lower := Decimal.trimmed ⟨quotient, grid⟩
  let upper := Decimal.trimmed ⟨quotient + 1, grid⟩
  let upperNearer := den < twice ∨ (twice = den ∧ (tie = .up ∨ quotient % 2 = 1))
  if lower.read = x ∧ (¬ upperNearer ∨ upper.read ≠ x) then some lower
  else if upper.read = x then some upper
  else none

/-- All digits of a finite number. -/
def exactDecimal (x : Number) : Decimal := .trimmed ⟨x.units * Nat.pow 5 1074, -1074⟩

/-- The decimal with the fewest digits that reads back as `x`, and the nearest to `x` of these.
Stated for a finite number without a sign. -/
def shortest (tie : Tie) (x : Number) : Decimal :=
  if x.isZero then ⟨0, 0⟩
  else
    let order := x.decimalOrder
    ((List.range 17).findSome? fun n : Nat => x.onGrid? tie (order - 1 - n)).getD x.exactDecimal

end Number

end Lox
