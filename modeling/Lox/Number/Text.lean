import Lox.Number.Decimal

/-!
# Numbers as text

Four ways of writing a number: as a program prints it, in a printed tree, in a listing of tokens and
in JSON. All but JSON write positionally, without an exponent.
-/

namespace Lox

namespace Decimal

/-- A natural number in `width` digits or more, filled with zeros on the left. -/
def padded (width n : Nat) : String :=
  let text := toString n
  "".pushn '0' (width - text.length) ++ text

/-- Positional notation: a point stands only before digits of a fraction. -/
def positional : Decimal → String
  | ⟨digits, .ofNat n⟩ => toString (digits * Nat.pow 10 n)
  | ⟨digits, .negSucc n⟩ =>
    let one := Nat.pow 10 (n + 1)
    toString (digits / one) ++ "." ++ padded (n + 1) (digits % one)

/-- Positional notation with at least one digit after the point. -/
def positionalWithPoint : Decimal → String
  | ⟨digits, .ofNat n⟩ => positional ⟨digits, .ofNat n⟩ ++ ".0"
  | d => positional d

/-- The power of ten of the first digit. -/
def leadingExponent (d : Decimal) : Int := d.exponent + Number.digitCount d.digits - 1

/-- One digit, the others after a point, and the power of ten with its sign. -/
def scientific (d : Decimal) : String :=
  let fraction := (toString d.digits).drop 1
  let point := if fraction.isEmpty then "" else "."
  let exponent := d.leadingExponent
  let sign := if exponent < 0 then "-" else "+"
  ((toString d.digits).take 1).toString ++ point ++ fraction.toString ++ "e" ++ sign ++
    toString exponent.natAbs

end Decimal

namespace Number

/-- A number that is NaN, infinite, or a sign and an absolute value written by `write`. -/
def signed (write : Number → String) (x : Number) : String :=
  if x.isNaN then "NaN"
  else (if x.isNegative then "-" else "") ++ if x.isFinite then write x.abs else "inf"

/-- The text a program prints: the fewest digits that read back, ties upward. -/
def display : Number → String := signed fun x => (x.shortest .up).positional

/-- The digits of the whole part. -/
def wholeText (x : Number) : String := toString (x.units / unitsPerOne)

/-- The text in a printed tree: a whole number is written out exactly, with one decimal. -/
def treeText : Number → String :=
  signed fun x => if x.isIntegral then x.wholeText ++ ".0" else x.display

/-- The text in a listing of tokens: whole numbers below `2 ^ 63` have one decimal. -/
def tokenText : Number → String :=
  signed fun x =>
    if x.isIntegral && x.units / unitsPerOne < Nat.pow 2 63 then x.wholeText ++ ".0" else x.display

/-- The text in JSON: ties to even, an exponent outside `10 ^ -5 ≤ x < 10 ^ 16`, and nothing for
infinity and NaN. -/
def json (x : Number) : String :=
  if x.isFinite then
    signed (fun x =>
      let d := x.shortest .even
      if x.isZero ∨ (-5 ≤ d.leadingExponent ∧ d.leadingExponent < 16) then d.positionalWithPoint
      else d.scientific) x
  else "null"

end Number

end Lox
