import Lox.Text.Quoted
import Lox.Value

/-!
# Descriptions

Texts for a host that inspects a run. They show names, never values, since values may lead back to
what is described.
-/

namespace Lox

/-- The kind of a value. -/
def Value.typeName : Value → String
  | nil => "nil"
  | bool _ => "bool"
  | number _ => "number"
  | string _ => "string"
  | native _ => "native"
  | function _ => "function"
  | ofClass _ => "class"
  | ofInstance _ => "instance"

def Native.description (f : Native) : String :=
  "<native fn " ++ f.name ++ "/" ++ toString f.arity ++ ">"

def Function.description (f : Function) : String := "<fn " ++ f.name ++ ">"

def Class.description (c : Class) : String :=
  let superclass := match c.superclass with
    | some s => "Some(" ++ Text.quoted s.name ++ ")"
    | none => "None"
  "LoxClass \x7b name: " ++ Text.quoted c.name ++ ", superclass: " ++ superclass ++ ", methods: " ++
    Text.quotedList c.methods.sortedNames ++ " \x7d"

/-- An instance with the names of its fields. -/
def Instance.description (fields : Store Value) (i : Instance) : String :=
  "LoxInstance \x7b class: " ++ Text.quoted i.ofClass.name ++ ", fields: " ++
    Text.quotedList ((fields.scope i.id).sortedNames) ++ " \x7d"

/-- The innermost scope of an environment. -/
def Environment.description (store : Store Value) (env : Environment) : String :=
  let hasEnclosing := if env.enclosing.isEmpty then "false" else "true"
  "Environment \x7b names: " ++ Text.quotedList ((store.scope env.scope).sortedNames) ++
    ", has_enclosing: " ++ hasEnclosing ++ " \x7d"

end Lox
