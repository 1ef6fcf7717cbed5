/-!
# Numbers

The numbers of the language are the IEEE 754 doubles, kept as their 64 bits, so that two numbers are
equal in Lean exactly when they are the same double. A finite double is a whole number of the
smallest positive double: `units` counts them, and `nearest` goes back from a fraction, rounding to
the nearest double and a tie to the even significand.

## Implementation notes

The bits without the sign are read as one number, the magnitude. With `scale` the exponent field
less one (zero for subnormals too) and `significand` the rest, `magnitude = scale * 2 ^ 52 +
significand` holds for subnormal and normal doubles alike, and a significand that rounds up to
`2 ^ 53` carries into the exponent by itself.
-/

namespace Lox

/-- A double, given by its bits. -/
structure Number where
  bits : UInt64
deriving DecidableEq

namespace Number

/-- The bits without the sign. -/
def magnitude (x : Number) : Nat := x.bits.toNat % Nat.pow 2 63

/-- The magnitude of infinity: all finite magnitudes are below it, those of NaN above. -/
def infinityMagnitude : Nat := 2047 * Nat.pow 2 52

def isNegative (x : Number) : Bool := Nat.pow 2 63 ≤ x.bits.toNat

def isFinite (x : Number) : Bool := x.magnitude < infinityMagnitude

def isNaN (x : Number) : Bool := infinityMagnitude < x.magnitude

/-- Both zeros have magnitude zero. -/
def isZero (x : Number) : Bool := x.magnitude = 0

/-- How often the significand is doubled. -/
def scale (x : Number) : Nat := x.magnitude / Nat.pow 2 52 - 1

def significand (x : Number) : Nat := x.magnitude - x.scale * Nat.pow 2 52

/-- The absolute value as a count of the smallest positive double. -/
def units (x : Number) : Nat := x.significand * Nat.pow 2 x.scale

/-- How many of the smallest positive double make one. -/
def unitsPerOne : Nat := Nat.pow 2 1074

/-- A finite number without a fractional part. -/
def isIntegral (x : Number) : Bool := x.isFinite && x.units % unitsPerOne = 0

theorem magnitude_eq (x : Number) : x.magnitude = x.scale * Nat.pow 2 52 + x.significand := by
  have hscale : x.scale * Nat.pow 2 52 ≤ x.magnitude :=
    Nat.le_trans (Nat.mul_le_mul_right _ (Nat.sub_le _ 1)) (Nat.div_mul_le_self _ _)
  exact (Nat.add_sub_cancel' hscale).symm

/-! ### Rounding -/

/-- The whole number nearest to `num / den`; a tie goes to the even one. -/
def roundHalfEven (num den : Nat) : Nat :=
  let quotient := num / den
  let twice := 2 * (num % den)
  if twice < den ∨ (twice = den ∧ quotient % 2 = 0) then quotient else quotient + 1

def ofMagnitude (n : Nat) : Number := ⟨UInt64.ofNat n⟩

/-- The double nearest to `num / den`; past the largest finite double it is infinity. -/
def nearest (num den : Nat) : Number :=
  let scaled := num * unitsPerOne
  let scale := (scaled / den).log2 + 1 - 53
  let significand := roundHalfEven scaled (den * Nat.pow 2 scale)
  ofMagnitude (min (scale * Nat.pow 2 52 + significand) infinityMagnitude)

/-! ### Arithmetic -/

def toFloat (x : Number) : Float := Float.ofBits x.bits

def ofFloat (x : Float) : Number := ⟨x.toBits⟩

instance : Add Number := ⟨fun a b => ofFloat (a.toFloat + b.toFloat)⟩
instance : Sub Number := ⟨fun a b => ofFloat (a.toFloat - b.toFloat)⟩
instance : Mul Number := ⟨fun a b => ofFloat (a.toFloat * b.toFloat)⟩
instance : Div Number := ⟨fun a b => ofFloat (a.toFloat / b.toFloat)⟩

/-- Negation flips the sign bit. -/
instance : Neg Number := ⟨fun x => ⟨x.bits ^^^ 0x8000000000000000⟩⟩

/-- The number without its sign. -/
def abs (x : Number) : Number := ofMagnitude x.magnitude

/-! ### Comparison -/

def less (a b : Number) : Bool := a.toFloat < b.toFloat

def lessEqual (a b : Number) : Bool := a.toFloat ≤ b.toFloat

/-- Equality as the language sees it: the two zeros are equal, and so are any two NaNs. -/
def equal (a b : Number) : Bool :=
  a = b || (a.isZero && b.isZero) || (a.isNaN && b.isNaN)

theorem isNaN_eq_false_of_isZero {x : Number} (h : x.isZero = true) : x.isNaN = false := by
  simp [isZero] at h
  simp [isNaN, h]

theorem equal_refl (x : Number) : equal x x = true := by simp [equal]

theorem equal_comm (a b : Number) : equal a b = equal b a := by
  simp [equal, eq_comm, Bool.and_comm]

theorem equal_trans {a b c : Number} (hab : equal a b = true) (hbc : equal b c = true) :
    equal a c = true := by
  simp only [equal, Bool.or_eq_true, Bool.and_eq_true, decide_eq_true_eq] at *
  rcases hab with (rfl | ⟨ha, hb⟩) | ⟨ha, hb⟩
  · exact hbc
  · rcases hbc with (rfl | ⟨_, hc⟩) | ⟨hb', _⟩
    · exact .inl (.inr ⟨ha, hb⟩)
    · exact .inl (.inr ⟨ha, hc⟩)
    · rw [isNaN_eq_false_of_isZero hb] at hb'
      contradiction
  · rcases hbc with (rfl | ⟨hb', _⟩) | ⟨_, hc⟩
    · exact .inr ⟨ha, hb⟩
    · rw [isNaN_eq_false_of_isZero hb'] at hb
      contradiction
    · exact .inr ⟨ha, hc⟩

end Number

end Lox
