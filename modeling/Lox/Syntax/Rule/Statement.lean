import Lox.Syntax.Rule.Expression

/-!
# Reading statements

Declarations and statements. As with expressions, the rules recurse on a depth.
-/

namespace Lox

namespace Rule

open Procedure

/-- Parameters with commas between them, when `count` have been read before. -/
def parameters : Nat → Nat → Rule (List Identifier)
  | 0, _ => exhaust
  | n + 1, count => do
    noteIfFull count .tooManyParameters
    let parameter ← expectName .ofParameter
    if ← accept (.symbol .comma) then
      return parameter :: (← parameters n (count + 1))
    else
      return [parameter]

/-- An expression, unless this symbol comes at once. -/
def expressionUnless (symbol : Symbol) (n : Nat) : Rule (Option Expr) := do
  if ← sees (.symbol symbol) then
    return none
  else
    return some (← expression n)

/-- What follows `var`. -/
def variableDeclaration (n : Nat) : Rule Stmt := do
  let name ← expectName .ofVariable
  let initial ← if ← accept (.symbol .equal) then some <$> expression n else pure none
  let _ ← expectSymbol .semicolon .afterVariableDeclaration
  return .var name initial

def expressionStatement (n : Nat) : Rule Stmt := do
  let value ← expression n
  let _ ← expectSymbol .semicolon .afterExpression
  return .expression value

/-- What follows `print`. -/
def printStatement (n : Nat) : Rule Stmt := do
  let value ← expression n
  let _ ← expectSymbol .semicolon .afterValue
  return .print value

/-- What follows `return`, which stands on `line`. -/
def returnStatement (n line : Nat) : Rule Stmt := do
  let value ← expressionUnless .semicolon n
  let _ ← expectSymbol .semicolon .afterReturnValue
  return .ret line value

/-- A condition in parentheses, after the keyword that asks for it. -/
def condition (keyword : Keyword) (n : Nat) : Rule Expr := do
  let _ ← expectSymbol .leftParen (.afterKeyword keyword)
  let value ← expression n
  let _ ← expectSymbol .rightParen .afterCondition
  return value

/-- The first clause of a `for` loop with its semicolon. -/
def forInitial (n : Nat) : Rule (Option Stmt) := do
  if ← accept (.symbol .semicolon) then
    return none
  else if ← accept (.keyword .kwVar) then
    return some (← variableDeclaration n)
  else
    return some (← expressionStatement n)

/-- Whether a body in braces, or the source, ends here. -/
def bodyEnds : Rule Bool := do
  let token ← peek
  return token.kind = .symbol .rightBrace || token.kind = .endOfSource

mutual

def declaration : Nat → Rule Stmt
  | 0 => exhaust
  | n + 1 => do
    if ← accept (.keyword .kwClass) then
      classDeclaration n
    else if ← accept (.keyword .kwFun) then
      return .function (← function n .function)
    else if ← accept (.keyword .kwVar) then
      variableDeclaration n
    else
      statement n

/-- What follows `class`. -/
def classDeclaration : Nat → Rule Stmt
  | 0 => exhaust
  | n + 1 => do
    let name ← expectName .ofClass
    let superclass ← if ← accept (.symbol .less) then do
        let name ← expectName .ofSuperclass
        pure (some ⟨← freshId, name⟩)
      else pure none
    let _ ← expectSymbol .leftBrace .beforeClassBody
    let methods ← methods n []
    let _ ← expectSymbol .rightBrace .afterClassBody
    return .classDef name superclass methods

/-- The methods of a class body, after those in `before`, newest first. -/
def methods : Nat → List FunctionDef → Rule (List FunctionDef)
  | 0, _ => exhaust
  | n + 1, before => do
    if ← bodyEnds then
      return before.reverse
    else
      methods n ((← function n .method) :: before)

/-- A function from its name on. -/
def function : Nat → FunctionRole → Rule FunctionDef
  | 0, _ => exhaust
  | n + 1, role => do
    let name ← expectName (.ofFunction role)
    let _ ← expectSymbol .leftParen (.afterName role)
    let params ← if ← sees (.symbol .rightParen) then pure [] else parameters n 0
    let _ ← expectSymbol .rightParen .afterParameters
    let _ ← expectSymbol .leftBrace (.beforeBody role)
    return ⟨name, params, ← block n []⟩

/-- The statements of a block after its opening brace and the statements in `before`, newest first.
-/
def block : Nat → List Stmt → Rule (List Stmt)
  | 0, _ => exhaust
  | n + 1, before => do
    if ← bodyEnds then
      let _ ← expectSymbol .rightBrace .afterBlock
      return before.reverse
    else
      block n ((← declaration n) :: before)

def statement : Nat → Rule Stmt
  | 0 => exhaust
  | n + 1 => do
    let token ← peek
    match token.kind with
    | .keyword .kwFor =>
      advance
      let _ ← expectSymbol .leftParen (.afterKeyword .kwFor)
      let initial ← forInitial n
      let condition ← expressionUnless .semicolon n
      let _ ← expectSymbol .semicolon .afterLoopCondition
      let increment ← expressionUnless .rightParen n
      let _ ← expectSymbol .rightParen .afterForClauses
      return .forLoop initial condition increment (← statement n)
    | .keyword .kwIf =>
      advance
      let condition ← condition .kwIf n
      let thenBranch ← statement n
      if ← accept (.keyword .kwElse) then
        return .conditional condition thenBranch (some (← statement n))
      else
        return .conditional condition thenBranch none
    | .keyword .kwWhile =>
      advance
      let condition ← condition .kwWhile n
      return .whileLoop condition (← statement n)
    | .keyword .kwReturn => advance; returnStatement n token.line
    | .symbol .leftBrace => advance; return .block (← block n [])
    | .keyword .kwPrint => advance; printStatement n
    | _ => expressionStatement n

end

end Rule

end Lox
