import Lox.Value

/-!
# Runtime errors

What can go wrong while a program runs, and on which line.
-/

namespace Lox

/-- Operands, or a superclass, of the wrong type. -/
inductive TypeFault where
  | operandNotNumber
  | operandsNotNumbers
  | operandsNotNumbersOrStrings
  | superclassNotClass
deriving DecidableEq

def TypeFault.message : TypeFault → String
  | operandNotNumber => "Operand must be a number."
  | operandsNotNumbers => "Operands must be numbers."
  | operandsNotNumbersOrStrings => "Operands must be two numbers or two strings."
  | superclassNotClass => "Superclass must be a class."

inductive RuntimeFault where
  | undefinedVariable (name : String)
  | undefinedProperty (name : String)
  | wrongType (fault : TypeFault)
  | notCallable
  | arityMismatch (expected given : Nat)
  | stackOverflow
  | propertyOfNonInstance
  | fieldOfNonInstance
  | native (message : String)
  | outputClosed
deriving DecidableEq

def RuntimeFault.message : RuntimeFault → String
  | undefinedVariable name => "Undefined variable '" ++ name ++ "'."
  | undefinedProperty name => "Undefined property '" ++ name ++ "'."
  | wrongType fault => fault.message
  | notCallable => "Can only call functions and classes."
  | arityMismatch expected given =>
    "Expected " ++ toString expected ++ " arguments but got " ++ toString given ++ "."
  | stackOverflow => "Stack overflow."
  | propertyOfNonInstance => "Only instances have properties."
  | fieldOfNonInstance => "Only instances have fields."
  | native message => message
  | outputClosed => "Failed to write output: sink closed"

structure Failure where
  fault : RuntimeFault
  line : Nat
deriving DecidableEq

def Failure.display (e : Failure) : String :=
  e.fault.message ++ "\n[line " ++ toString e.line ++ "]"

/-! ### Operators -/

def UnaryOperator.apply : UnaryOperator → Value → Except RuntimeFault Value
  | negate, .number x => .ok (.number (-x))
  | negate, _ => .error (.wrongType .operandNotNumber)
  | not, value => .ok (.bool !value.isTruthy)

/-- Only `+` takes strings, equality takes all values, and nothing is converted. -/
def BinaryOperator.apply : BinaryOperator → Value → Value → Except RuntimeFault Value
  | equal, a, b => .ok (.bool (a.equal b))
  | notEqual, a, b => .ok (.bool !a.equal b)
  | add, .number a, .number b => .ok (.number (a + b))
  | add, .string a, .string b => .ok (.string (a ++ b))
  | add, _, _ => .error (.wrongType .operandsNotNumbersOrStrings)
  | subtract, .number a, .number b => .ok (.number (a - b))
  | multiply, .number a, .number b => .ok (.number (a * b))
  | divide, .number a, .number b => .ok (.number (a / b))
  | less, .number a, .number b => .ok (.bool (a.less b))
  | lessEqual, .number a, .number b => .ok (.bool (a.lessEqual b))
  | greater, .number a, .number b => .ok (.bool (b.less a))
  | greaterEqual, .number a, .number b => .ok (.bool (b.lessEqual a))
  | _, _, _ => .error (.wrongType .operandsNotNumbers)

/-- Whether the left operand is the result, so that the right one is left alone. -/
def LogicalOperator.decides : LogicalOperator → Value → Bool
  | or, left => left.isTruthy
  | and, left => !left.isTruthy

end Lox
