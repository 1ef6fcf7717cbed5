import Lox.Environment
import Lox.Number.Text
import Lox.Syntax

/-!
# Values

Values are immutable but for the fields of instances, which are kept by the instance's number.
Functions, classes and instances have an identity besides their content: two of them are equal when
they were made by the same step of a run.
-/

namespace Lox

/-- A function of the host, by its number among the host functions. -/
structure Native where
  id : Nat
  name : String
  arity : Nat

/-- A declared function with the environment of its declaration. -/
structure Function where
  id : Nat
  declaration : FunctionDef
  closure : Environment
  isInitializer : Bool

namespace Function

def name (f : Function) : String := f.declaration.name.text

def arity (f : Function) : Nat := f.declaration.params.length

end Function

structure Class where
  id : Nat
  name : String
  superclass : Option Class
  methods : Table Function

namespace Class

/-- The method of this name in the nearest class of the chain. -/
def findMethod? (name : String) : Class → Option Function
  | ⟨_, _, none, methods⟩ => methods.get? name
  | ⟨_, _, some superclass, methods⟩ => (methods.get? name).or (superclass.findMethod? name)

def initializer? (c : Class) : Option Function := c.findMethod? initializerName

/-- A class takes the arguments of its initializer. -/
def arity (c : Class) : Nat := (c.initializer?.map Function.arity).getD 0

/-- The names of the classes above, nearest first. -/
def superclassNames : Class → List String
  | ⟨_, _, none, _⟩ => []
  | ⟨_, _, some superclass, _⟩ => superclass.name :: superclass.superclassNames

end Class

/-- An instance, by the place of its fields, and its class. -/
structure Instance where
  id : Nat
  ofClass : Class

inductive Value where
  | nil
  | bool (value : Bool)
  | number (value : Number)
  | string (value : String)
  | native (function : Native)
  | function (function : Function)
  | ofClass (value : Class)
  | ofInstance (value : Instance)

namespace Value

/-- Only `nil` and `false` count as false. -/
def isTruthy : Value → Bool
  | nil => false
  | bool value => value
  | _ => true

/-- How many arguments a value takes, if it can be called. -/
def arity? : Value → Option Nat
  | native f => some f.arity
  | function f => some f.arity
  | ofClass c => some c.arity
  | _ => none

/-- Scalars are equal by content, all others by identity; values of two kinds are never equal. -/
def equal : Value → Value → Bool
  | nil, nil => true
  | bool a, bool b => a = b
  | number a, number b => a.equal b
  | string a, string b => a = b
  | native a, native b => a.id = b.id
  | function a, function b => a.id = b.id
  | ofClass a, ofClass b => a.id = b.id
  | ofInstance a, ofInstance b => a.id = b.id
  | _, _ => false

/-- The text that `print` writes. -/
def display : Value → String
  | nil => "nil"
  | bool value => if value then "true" else "false"
  | number value => value.display
  | string value => value
  | native _ => "<native fn>"
  | function f => "<fn " ++ f.name ++ ">"
  | ofClass c => c.name
  | ofInstance i => i.ofClass.name ++ " instance"

def ofLiteral : Literal → Value
  | .number value => number value
  | .string value => string value
  | .bool value => bool value
  | .nil => nil

end Value

end Lox
