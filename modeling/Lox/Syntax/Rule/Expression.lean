import Lox.Syntax.Rule

/-!
# Reading expressions

Expressions by recursive descent. The operators between two operands are a table of levels, loosest
first, each read as operands in a row that associate to the left.

## Implementation notes

The rules recurse on a depth, an upper bound on how deep their calls nest. Fewer than sixteen calls
nest between two tokens, see `Cursor.depthFor`.
-/

namespace Lox

/-- An operator between two operands. -/
inductive Connective where
  | binary (operator : BinaryOperator)
  | logical (operator : LogicalOperator)
deriving DecidableEq

def Connective.join (line : Nat) : Connective → Expr → Expr → Expr
  | binary operator, left, right => .binary left operator right line
  | logical operator, left, right => .logical left operator right

namespace Cursor

abbrev Level := List (Token.Kind × Connective)

/-- The levels of precedence of the operators between two operands, loosest first. -/
def levels : List Level :=
  [ [(.keyword .kwOr, .logical .or)],
    [(.keyword .kwAnd, .logical .and)],
    [(.symbol .bangEqual, .binary .notEqual), (.symbol .equalEqual, .binary .equal)],
    [(.symbol .greater, .binary .greater), (.symbol .greaterEqual, .binary .greaterEqual),
      (.symbol .less, .binary .less), (.symbol .lessEqual, .binary .lessEqual)],
    [(.symbol .minus, .binary .subtract), (.symbol .plus, .binary .add)],
    [(.symbol .star, .binary .multiply), (.symbol .slash, .binary .divide)] ]

/-- The operators before an operand. -/
def unaryOperator? : Token.Kind → Option UnaryOperator
  | .symbol .bang => some .not
  | .symbol .minus => some .negate
  | _ => none

/-- A depth that no reading of these tokens exceeds. -/
def depthFor (tokens : List Token) : Nat := 16 * (tokens.length + 1)

end Cursor

namespace Rule

open Procedure

/-- Assigns to what has been read as an expression. A target that is neither a name nor a property
is noted, and the expression stands for itself. -/
def assignTo (target value : Expr) (line : Nat) : Rule Expr :=
  match target with
  | .reference r => return .assign ⟨← freshId, r.name⟩ value
  | .get object name => return .set object name value
  | other => do
    note .invalidAssignmentTarget line
    return other

mutual

/-- An assignment, or an expression without one. -/
def expression : Nat → Rule Expr
  | 0 => exhaust
  | n + 1 => do
    let target ← operators n Cursor.levels
    match ← accept? (.symbol .equal) with
    | some equal =>
      let value ← expression n
      assignTo target value equal.line
    | none => return target

/-- Operands joined by the operators of these levels. -/
def operators : Nat → List Cursor.Level → Rule Expr
  | 0, _ => exhaust
  | n + 1, [] => unary n
  | n + 1, level :: tighter => do
    let left ← operators n tighter
    moreOperands n level tighter left

/-- Further operands of one level, after `left`. -/
def moreOperands : Nat → Cursor.Level → List Cursor.Level → Expr → Rule Expr
  | 0, _, _, _ => exhaust
  | n + 1, level, tighter, left => do
    let token ← peek
    match level.lookup token.kind with
    | some connective =>
      advance
      let right ← operators n tighter
      moreOperands n level tighter (connective.join token.line left right)
    | none => return left

def unary : Nat → Rule Expr
  | 0 => exhaust
  | n + 1 => do
    let token ← peek
    match Cursor.unaryOperator? token.kind with
    | some operator =>
      advance
      return .unary operator (← unary n) token.line
    | none =>
      let callee ← primary n
      postfixes n callee

/-- Calls and property names after an expression. -/
def postfixes : Nat → Expr → Rule Expr
  | 0, _ => exhaust
  | n + 1, e => do
    if ← accept (.symbol .leftParen) then
      let arguments ← if ← sees (.symbol .rightParen) then pure [] else arguments n 0
      let close ← expectSymbol .rightParen .afterArguments
      postfixes n (.call e arguments close.line)
    else if ← accept (.symbol .dot) then
      postfixes n (.get e (← expectName .ofProperty))
    else
      return e

/-- Arguments with commas between them, when `count` have been read before. -/
def arguments : Nat → Nat → Rule (List Expr)
  | 0, _ => exhaust
  | n + 1, count => do
    noteIfFull count .tooManyArguments
    let argument ← expression n
    if ← accept (.symbol .comma) then
      return argument :: (← arguments n (count + 1))
    else
      return [argument]

def primary : Nat → Rule Expr
  | 0 => exhaust
  | n + 1 => do
    let token ← peek
    match token.kind with
    | .keyword .kwFalse => advance; return .literal (.bool false)
    | .keyword .kwTrue => advance; return .literal (.bool true)
    | .keyword .kwNil => advance; return .literal .nil
    | .number value => advance; return .literal (.number value)
    | .string contents => advance; return .literal (.string contents)
    | .keyword .kwThis => advance; return .this (← freshId) token.line
    | .identifier => advance; return .reference ⟨← freshId, ⟨token.text, token.line⟩⟩
    | .keyword .kwSuper =>
      advance
      let _ ← expectSymbol .dot (.afterKeyword .kwSuper)
      let method ← expectName .ofSuperclassMethod
      return .super (← freshId) token.line method
    | .symbol .leftParen =>
      advance
      let inner ← expression n
      let _ ← expectSymbol .rightParen .afterExpression
      return .grouping inner
    | _ => fail ⟨.grammatical .expectedExpression, token.line⟩

end

end Rule

end Lox
