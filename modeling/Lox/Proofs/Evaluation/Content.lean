import Lox.Failure

/-!
# The content of values

Operators, conditions and `print` see of a value only its content. The code and the environments of
functions do not show.
-/

namespace Lox

namespace Value

/-- A value without code and environments. -/
def content : Value → Value
  | function f => function ⟨f.id, ⟨⟨f.name, 0⟩, [], []⟩, .global, false⟩
  | ofClass c => ofClass ⟨c.id, c.name, none, ∅⟩
  | ofInstance object => ofInstance ⟨object.id, ⟨0, object.ofClass.name, none, ∅⟩⟩
  | value => value

/-- A value without identity. -/
def IsPlain : Value → Prop
  | nil | bool _ | number _ | string _ => True
  | native _ | function _ | ofClass _ | ofInstance _ => False

theorem display_content (a : Value) : a.content.display = a.display := by
  cases a <;> rfl

theorem isTruthy_content (a : Value) : a.content.isTruthy = a.isTruthy := by
  cases a <;> rfl

theorem equal_content (a b : Value) : a.content.equal b.content = a.equal b := by
  cases a <;> cases b <;> rfl

theorem isPlain_ofLiteral (literal : Literal) : (ofLiteral literal).IsPlain := by
  cases literal <;> trivial

end Value

namespace UnaryOperator

theorem apply_content (operator : UnaryOperator) (a : Value) :
    operator.apply a.content = operator.apply a := by
  cases operator <;> cases a <;> rfl

theorem isPlain_apply {operator : UnaryOperator} {a value : Value}
    (h : operator.apply a = .ok value) : value.IsPlain := by
  unfold apply at h
  split at h <;> cases h <;> trivial

end UnaryOperator

namespace BinaryOperator

theorem apply_content (operator : BinaryOperator) (a b : Value) :
    operator.apply a.content b.content = operator.apply a b := by
  cases operator with
  | equal | notEqual => simp only [apply, Value.equal_content]
  | _ => cases a <;> cases b <;> rfl

theorem isPlain_apply {operator : BinaryOperator} {a b value : Value}
    (h : operator.apply a b = .ok value) : value.IsPlain := by
  unfold apply at h
  split at h <;> cases h <;> trivial

end BinaryOperator

theorem LogicalOperator.decides_content (operator : LogicalOperator) (a : Value) :
    operator.decides a.content = operator.decides a := by
  cases operator <;> simp only [decides, Value.isTruthy_content]

end Lox
