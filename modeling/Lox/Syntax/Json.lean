import Lox.Json
import Lox.Syntax

/-!
# Trees as JSON

A node is an object with one member, named for the kind of node, which holds the parts of the node
in order. A node without parts is its name alone.
-/

namespace Lox

/-- A node of this kind. -/
def Json.node (kind : String) (content : Json) : Json := .object [(kind, content)]

def Json.ofOption : Option Json → Json
  | some j => j
  | none => .null

def Identifier.json (name : Identifier) : Json :=
  .object [("name", .string name.text), ("line", .natural name.line)]

def Reference.json (target : Reference) : Json :=
  .node "Variable" (.object [("id", .natural target.id), ("name", target.name.json)])

def Literal.json : Literal → Json
  | number value => .node "Number" (.number value)
  | string value => .node "Str" (.string value)
  | bool value => .string (if value then "True" else "False")
  | nil => .string "Nil"

def UnaryOperator.json : UnaryOperator → Json
  | negate => .string "Negate"
  | not => .string "Not"

def BinaryOperator.json : BinaryOperator → Json
  | add => .string "Add"
  | subtract => .string "Subtract"
  | multiply => .string "Multiply"
  | divide => .string "Divide"
  | equal => .string "Equal"
  | notEqual => .string "NotEqual"
  | less => .string "Less"
  | lessEqual => .string "LessEqual"
  | greater => .string "Greater"
  | greaterEqual => .string "GreaterEqual"

def LogicalOperator.json : LogicalOperator → Json
  | and => .string "And"
  | or => .string "Or"

namespace Expr

mutual

def json : Expr → Json
  | literal value => .node "Literal" value.json
  | unary operator operand line =>
    .node "Unary" (.object
      [("operator", operator.json), ("right", operand.json), ("line", .natural line)])
  | binary left operator right line =>
    .node "Binary" (.object
      [("left", left.json), ("operator", operator.json), ("right", right.json),
        ("line", .natural line)])
  | logical left operator right =>
    .node "Logical" (.object
      [("left", left.json), ("operator", operator.json), ("right", right.json)])
  | grouping inner => .node "Grouping" inner.json
  | reference target => target.json
  | assign target value =>
    .node "Assign" (.object
      [("id", .natural target.id), ("name", target.name.json), ("value", value.json)])
  | call callee arguments line =>
    .node "Call" (.object
      [("callee", callee.json), ("arguments", .array (jsons arguments)), ("line", .natural line)])
  | get object name => .node "Get" (.object [("object", object.json), ("name", name.json)])
  | set object name value =>
    .node "Set" (.object
      [("object", object.json), ("name", name.json), ("value", value.json)])
  | this id line => .node "This" (.object [("id", .natural id), ("line", .natural line)])
  | super id line method =>
    .node "Super" (.object
      [("id", .natural id), ("line", .natural line), ("method", method.json)])

def jsons : List Expr → List Json
  | [] => []
  | e :: rest => e.json :: jsons rest

end

end Expr

namespace Stmt

mutual

def json : Stmt → Json
  | expression value => .node "Expression" value.json
  | print value => .node "Print" value.json
  | var name initial =>
    .node "Var" (.object
      [("name", name.json), ("initializer", .ofOption (initial.map Expr.json))])
  | block body => .node "Block" (.array (jsons body))
  | conditional condition thenBranch none =>
    .node "If" (.object
      [("condition", condition.json), ("then_branch", thenBranch.json), ("else_branch", .null)])
  | conditional condition thenBranch (some elseBranch) =>
    .node "If" (.object
      [("condition", condition.json), ("then_branch", thenBranch.json),
        ("else_branch", elseBranch.json)])
  | whileLoop condition body =>
    .node "While" (.object [("condition", condition.json), ("body", body.json)])
  | function declaration => .node "Function" (functionJson declaration)
  | ret line value =>
    .node "Return" (.object
      [("line", .natural line), ("value", .ofOption (value.map Expr.json))])
  | classDef name superclass methods =>
    .node "Class" (.object
      [("name", name.json), ("superclass", .ofOption (superclass.map Reference.json)),
        ("methods", .array (functionJsons methods))])

def jsons : List Stmt → List Json
  | [] => []
  | s :: rest => s.json :: jsons rest

def functionJson : FunctionDef → Json
  | ⟨name, params, body⟩ =>
    .object
      [("name", name.json), ("params", .array (params.map Identifier.json)),
        ("body", .array (jsons body))]

def functionJsons : List FunctionDef → List Json
  | [] => []
  | f :: rest => functionJson f :: functionJsons rest

end

end Stmt

/-- The text of a program as JSON. -/
def programJson (statements : List Stmt) : String := (Json.array (Stmt.jsons statements)).text

end Lox
