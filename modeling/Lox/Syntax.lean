import Lox.Number

/-!
# Syntax trees

Expressions, statements and function declarations. A node that refers to a variable carries a number
of its own, its `NodeId`, by which later stages tell two references to one name apart. A `for` loop
has no node: it is written with a block and a `while` loop.
-/

namespace Lox

/-- A name with the line on which it is written. -/
structure Identifier where
  text : String
  line : Nat
deriving DecidableEq

abbrev NodeId := Nat

/-- A name used for the variable of that name. -/
structure Reference where
  id : NodeId
  name : Identifier
deriving DecidableEq

inductive Literal where
  | number (value : Number)
  | string (value : String)
  | bool (value : Bool)
  | nil
deriving DecidableEq

inductive UnaryOperator where
  | negate
  | not
deriving DecidableEq

def UnaryOperator.text : UnaryOperator → String
  | negate => "-"
  | not => "!"

inductive BinaryOperator where
  | add
  | subtract
  | multiply
  | divide
  | equal
  | notEqual
  | less
  | lessEqual
  | greater
  | greaterEqual
deriving DecidableEq

def BinaryOperator.text : BinaryOperator → String
  | add => "+"
  | subtract => "-"
  | multiply => "*"
  | divide => "/"
  | equal => "=="
  | notEqual => "!="
  | less => "<"
  | lessEqual => "<="
  | greater => ">"
  | greaterEqual => ">="

/-- The operators that may leave their right operand alone. -/
inductive LogicalOperator where
  | and
  | or
deriving DecidableEq

def LogicalOperator.text : LogicalOperator → String
  | and => "and"
  | or => "or"

inductive Expr where
  | literal (value : Literal)
  | unary (operator : UnaryOperator) (operand : Expr) (line : Nat)
  | binary (left : Expr) (operator : BinaryOperator) (right : Expr) (line : Nat)
  | logical (left : Expr) (operator : LogicalOperator) (right : Expr)
  | grouping (inner : Expr)
  | reference (target : Reference)
  | assign (target : Reference) (value : Expr)
  | call (callee : Expr) (arguments : List Expr) (line : Nat)
  | get (object : Expr) (name : Identifier)
  | set (object : Expr) (name : Identifier) (value : Expr)
  | this (id : NodeId) (line : Nat)
  | super (id : NodeId) (line : Nat) (method : Identifier)

/-- The line of the token that locates an expression. Literals have none. -/
def Expr.line? : Expr → Option Nat
  | literal _ => none
  | unary _ _ line => some line
  | binary _ _ _ line => some line
  | logical left _ _ => left.line?
  | grouping inner => inner.line?
  | reference target => some target.name.line
  | assign target _ => some target.name.line
  | call _ _ line => some line
  | get _ name => some name.line
  | set _ name _ => some name.line
  | this _ line => some line
  | super _ line _ => some line

mutual

/-- A function or a method. -/
structure FunctionDef where
  name : Identifier
  params : List Identifier
  body : List Stmt

inductive Stmt where
  | expression (value : Expr)
  | print (value : Expr)
  | var (name : Identifier) (initial : Option Expr)
  | block (body : List Stmt)
  | conditional (condition : Expr) (thenBranch : Stmt) (elseBranch : Option Stmt)
  | whileLoop (condition : Expr) (body : Stmt)
  | function (declaration : FunctionDef)
  | ret (line : Nat) (value : Option Expr)
  | classDef (name : Identifier) (superclass : Option Reference) (methods : List FunctionDef)

end

/-- The method that sets up a new instance. -/
def initializerName : String := "init"

/-- `for (initial; condition; increment) body` in terms of a `while` loop. -/
def Stmt.forLoop (initial : Option Stmt) (condition increment : Option Expr) (body : Stmt) : Stmt :=
  let body := match increment with
    | some e => block [body, expression e]
    | none => body
  let loop := whileLoop (condition.getD (.literal (.bool true))) body
  match initial with
  | some s => block [s, loop]
  | none => loop

end Lox
