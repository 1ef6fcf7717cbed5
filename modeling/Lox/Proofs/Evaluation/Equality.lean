import Lox.Evaluation
import Lox.Proofs.Number.Comparison

/-!
# Equality of values

The equality of values is given by rules, one for each kind of value and one more for NaN. It is an
equivalence on all values, it never relates values of two kinds, and equal values count for the same
truth. The two operators for it take any operands and never fail.
-/

namespace Lox

namespace Value

/-- The kinds of values. -/
inductive Kind where
  | nil
  | bool
  | number
  | string
  | native
  | function
  | ofClass
  | ofInstance
deriving DecidableEq

def kind : Value → Kind
  | nil => .nil
  | bool _ => .bool
  | number _ => .number
  | string _ => .string
  | native _ => .native
  | function _ => .function
  | ofClass _ => .ofClass
  | ofInstance _ => .ofInstance

/-- When two values are the same: scalars by content, where numbers compare as doubles do except that
any NaN is the same as any other, and all others by identity. -/
inductive Same : Value → Value → Prop
  | nil : Same nil nil
  | bool (b : Bool) : Same (bool b) (bool b)
  | number {x y : Number} (h : (x.toFloat == y.toFloat) = true) : Same (number x) (number y)
  | notANumber {x y : Number} (hx : x.toFloat.isNaN = true) (hy : y.toFloat.isNaN = true) :
    Same (number x) (number y)
  | string (text : String) : Same (string text) (string text)
  | native {f g : Native} (h : f.id = g.id) : Same (native f) (native g)
  | function {f g : Function} (h : f.id = g.id) : Same (function f) (function g)
  | ofClass {c d : Class} (h : c.id = d.id) : Same (ofClass c) (ofClass d)
  | ofInstance {i j : Instance} (h : i.id = j.id) : Same (ofInstance i) (ofInstance j)

variable {a b c : Value}

theorem same_number_iff {x y : Number} : Same (number x) (number y) ↔ x.equal y = true := by
  rw [Number.equal_eq, Bool.or_eq_true, Bool.and_eq_true]
  constructor
  · intro h
    cases h with
    | number h => exact .inl h
    | notANumber hx hy => exact .inr ⟨hx, hy⟩
  · rintro (h | ⟨hx, hy⟩)
    · exact .number h
    · exact .notANumber hx hy

theorem Same.equal (h : Same a b) : a.equal b = true := by
  cases h with
  | nil => rfl
  | bool | string => exact decide_eq_true rfl
  | number h => exact same_number_iff.1 (.number h)
  | notANumber hx hy => exact same_number_iff.1 (.notANumber hx hy)
  | native h | function h | ofClass h | ofInstance h => exact decide_eq_true h

theorem same_of_equal (h : a.equal b = true) : Same a b := by
  cases a <;> cases b <;> try exact absurd h Bool.false_ne_true
  case nil.nil => exact .nil
  case bool.bool =>
    obtain rfl := of_decide_eq_true h
    exact .bool _
  case number.number => exact same_number_iff.2 h
  case string.string =>
    obtain rfl := of_decide_eq_true h
    exact .string _
  case native.native => exact .native (of_decide_eq_true h)
  case function.function => exact .function (of_decide_eq_true h)
  case ofClass.ofClass => exact .ofClass (of_decide_eq_true h)
  case ofInstance.ofInstance => exact .ofInstance (of_decide_eq_true h)

theorem same_number_trans {x y : Number} (hxy : Same (number x) (number y))
    (hyc : Same (number y) c) : Same (number x) c := by
  obtain ⟨z, rfl⟩ : ∃ z, c = number z := by cases hyc <;> exact ⟨_, rfl⟩
  exact same_number_iff.2 (Number.equal_trans (same_number_iff.1 hxy) (same_number_iff.1 hyc))

theorem same_iff : Same a b ↔ a.equal b = true := ⟨Same.equal, same_of_equal⟩

namespace Same

theorem kind_eq (h : Same a b) : a.kind = b.kind := by cases h <;> rfl

theorem isTruthy_eq (h : Same a b) : a.isTruthy = b.isTruthy := by cases h <;> rfl

@[refl]
theorem refl (a : Value) : Same a a := by
  cases a with
  | nil => exact .nil
  | bool value => exact .bool value
  | number x => exact same_number_iff.2 x.equal_refl
  | string text => exact .string text
  | native f => exact .native rfl
  | function f => exact .function rfl
  | ofClass c => exact .ofClass rfl
  | ofInstance i => exact .ofInstance rfl

theorem symm (h : Same a b) : Same b a := by
  cases h with
  | nil => exact .nil
  | bool value => exact .bool value
  | @number x y h => exact same_number_iff.2 (Number.equal_comm x y ▸ same_number_iff.1 (.number h))
  | notANumber hx hy => exact .notANumber hy hx
  | string text => exact .string text
  | native h => exact .native h.symm
  | function h => exact .function h.symm
  | ofClass h => exact .ofClass h.symm
  | ofInstance h => exact .ofInstance h.symm

theorem trans (hab : Same a b) (hbc : Same b c) : Same a c := by
  cases hab with
  | nil | bool | string => exact hbc
  | number h => exact same_number_trans (.number h) hbc
  | notANumber hx hy => exact same_number_trans (.notANumber hx hy) hbc
  | native h => cases hbc with | native h' => exact .native (h.trans h')
  | function h => cases hbc with | function h' => exact .function (h.trans h')
  | ofClass h => cases hbc with | ofClass h' => exact .ofClass (h.trans h')
  | ofInstance h => cases hbc with | ofInstance h' => exact .ofInstance (h.trans h')

theorem equivalence : Equivalence Same := ⟨refl, symm, trans⟩

end Same

end Value

/-! ### Operators -/

open Procedure Run

/-- Whatever its operands evaluate to, `==` gives a truth value and does not fail by itself. -/
theorem Expr.evaluate_equal (n : Nat) (left right : Expr) (line : Nat) :
    (binary left .equal right line).evaluate (n + 1) = (do
      let a ← left.evaluate n
      let b ← right.evaluate n
      return .bool (a.equal b)) := by
  rw [evaluate]
  rfl

theorem Expr.evaluate_notEqual (n : Nat) (left right : Expr) (line : Nat) :
    (binary left .notEqual right line).evaluate (n + 1) = (do
      let a ← left.evaluate n
      let b ← right.evaluate n
      return .bool !a.equal b) := by
  rw [evaluate]
  rfl

/-- Equality of values is an equivalence within each kind of value that respects truth. The operators
for it take any operands: they never fail, and what one affirms the other denies. -/
theorem Value.equal_equivalence_within_kinds :
    (∀ a b : Value, a.equal b = true ↔ Same a b) ∧
    Equivalence (fun a b : Value => a.equal b = true) ∧
    (∀ a b : Value, a.equal b = true → a.kind = b.kind ∧ a.isTruthy = b.isTruthy) ∧
    (∀ a b : Value, ∃ same : Bool, BinaryOperator.equal.apply a b = .ok (.bool same) ∧
      BinaryOperator.notEqual.apply a b = .ok (.bool !same)) ∧
    ∀ (n : Nat) (left right : Expr) (line : Nat),
      (Expr.binary left .equal right line).evaluate (n + 1) = (do
        let a ← left.evaluate n
        let b ← right.evaluate n
        return .bool (a.equal b)) ∧
      (Expr.binary left .notEqual right line).evaluate (n + 1) = (do
        let a ← left.evaluate n
        let b ← right.evaluate n
        return .bool !a.equal b) := by
  refine ⟨fun _ _ => same_iff.symm, ?_, fun a b h => ?_, fun a b => ⟨a.equal b, rfl, rfl⟩,
    fun n left right line => ⟨left.evaluate_equal n right line, left.evaluate_notEqual n right line⟩⟩
  · simp only [← same_iff]
    exact Same.equivalence
  · have hsame := same_of_equal h
    exact ⟨hsame.kind_eq, hsame.isTruthy_eq⟩

/-- Two NaNs of other signs and payloads are equal, and so are the two zeros. -/
theorem Value.equal_of_nans_and_of_zeros :
    (number ⟨0x7FF8000000000000⟩).kind = (number ⟨0xFFF8000000000001⟩).kind ∧
    (number ⟨0⟩).isTruthy = (number ⟨0x8000000000000000⟩).isTruthy :=
  have h := equal_equivalence_within_kinds.2.2.1
  ⟨(h _ _ (by decide)).1, (h _ _ (by decide)).2⟩

end Lox
