import Lox.Machine

/-!
# Evaluation

Expressions and statements, run on the machine.

## Implementation notes

All functions recurse on a bound of their own, which every call lowers by one; a run that ends does
so with the same answer at every larger bound. The rounds of a loop count as nested calls.
-/

namespace Lox

open Procedure Run

mutual

def Expr.evaluate : Nat → Expr → Run Value
  | 0, _ => exhaust
  | n + 1, e =>
    match e with
    | .literal value => return .ofLiteral value
    | .grouping inner => inner.evaluate n
    | .unary operator operand line => do
      let value ← operand.evaluate n
      located line (operator.apply value)
    | .binary left operator right line => do
      let a ← left.evaluate n
      let b ← right.evaluate n
      located line (operator.apply a b)
    | .logical left operator right => do
      let value ← left.evaluate n
      if operator.decides value then return value else right.evaluate n
    | .reference target => valueOf target.id target.name.text target.name.line
    | .assign target value => do
      let value ← value.evaluate n
      assign target value
      return value
    | .call callee arguments line => do
      let callee ← callee.evaluate n
      let arguments ← evaluateAll n arguments
      match callee.arity? with
      | none => raise .notCallable line
      | some arity =>
        if arguments.length = arity then
          asCall line (callee.apply n arguments line)
        else
          raise (.arityMismatch arity arguments.length) line
    | .get object name => do
      match ← object.evaluate n with
      | .ofInstance object => property object name
      | _ => raise .propertyOfNonInstance name.line
    | .set object name value => do
      match ← object.evaluate n with
      | .ofInstance object =>
        let value ← value.evaluate n
        setField object name.text value
        return value
      | _ => raise .fieldOfNonInstance name.line
    | .this id line => valueOf id "this" line
    | .super id line method => superMethod id line method

/-- Evaluates arguments from left to right. -/
def evaluateAll : Nat → List Expr → Run (List Value)
  | 0, _ => exhaust
  | _ + 1, [] => return []
  | n + 1, e :: rest => do
    let value ← e.evaluate n
    return value :: (← evaluateAll n rest)

/-- Calls a value with as many arguments as it takes. A class makes an instance and lets its
initializer set it up. -/
def Value.apply : Nat → Value → List Value → Nat → Run Value
  | 0, _, _, _ => exhaust
  | n + 1, callee, arguments, line =>
    match callee with
    | .native f => callHost f arguments line
    | .function f => f.enter n arguments line
    | .ofClass c => do
      let object ← instantiate c
      match c.initializer? with
      | some initializer =>
        let bound ← Run.bind initializer object
        let _ ← bound.enter n arguments line
        return .ofInstance object
      | none => return .ofInstance object
    | _ => raise .notCallable line

/-- Runs the body of a function in a new scope with its parameters. An initializer gives the
instance, however it ends. -/
def Function.enter : Nat → Function → List Value → Nat → Run Value
  | 0, _, _, _ => exhaust
  | n + 1, f, arguments, line => do
    let params := f.declaration.params.map Identifier.text
    let frame ← newScope f.closure (.ofList (params.zip arguments))
    let completion ← inEnvironment frame (executeAll n f.declaration.body)
    if f.isInitializer then
      match ← read fun m => f.closure.getAt? m.store 0 "this" with
      | some object => return object
      | none => raise (.undefinedVariable "this") line
    else
      match completion with
      | .returned value => return value
      | .normal => return .nil

def Stmt.execute : Nat → Stmt → Run Completion
  | 0, _ => exhaust
  | n + 1, s =>
    match s with
    | .expression value => do
      let _ ← value.evaluate n
      return .normal
    | .print e => do
      let value ← e.evaluate n
      let line := e.line?.getD 0
      write value.display line
      write "\n" line
      return .normal
    | .var name initial => do
      let value ← match initial with
        | some e => e.evaluate n
        | none => pure .nil
      define name.text value
      return .normal
    | .block body => do
      let scope ← newScope (← read Machine.environment) ∅
      inEnvironment scope (executeAll n body)
    | .conditional condition thenBranch elseBranch => do
      if (← condition.evaluate n).isTruthy then
        thenBranch.execute n
      else
        match elseBranch with
        | some elseBranch => elseBranch.execute n
        | none => return .normal
    | .whileLoop condition body => repeatWhile n condition body
    | .function declaration => do
      let closure ← read Machine.environment
      let id ← freshIdentity 1
      define declaration.name.text (.function ⟨id, declaration, closure, false⟩)
      return .normal
    | .ret _ value => do
      match value with
      | some e => return .returned (← e.evaluate n)
      | none => return .returned .nil
    | .classDef name superclass methods => do
      let superclass ← match superclass with
        | some target => do
          match ← valueOf target.id target.name.text target.name.line with
          | .ofClass c => pure (some c)
          | _ => raise (.wrongType .superclassNotClass) target.name.line
        | none => pure none
      define name.text .nil
      let outside ← read Machine.environment
      let closure ← match superclass with
        | some c => newScope outside (.ofList [("super", .ofClass c)])
        | none => pure outside
      let id ← freshIdentity (methods.length + 1)
      let table := Machine.methodTable (id + 1) closure methods
      define name.text (.ofClass ⟨id, name.text, superclass, table⟩)
      return .normal

/-- Runs statements until one of them returns. -/
def executeAll : Nat → List Stmt → Run Completion
  | 0, _ => exhaust
  | _ + 1, [] => return .normal
  | n + 1, s :: rest => do
    match ← s.execute n with
    | .returned value => return .returned value
    | .normal => executeAll n rest

/-- Runs the body as long as the condition holds. -/
def repeatWhile : Nat → Expr → Stmt → Run Completion
  | 0, _, _ => exhaust
  | n + 1, condition, body => do
    if (← condition.evaluate n).isTruthy then
      match ← body.execute n with
      | .returned value => return .returned value
      | .normal => repeatWhile n condition body
    else
      return .normal

end

/-- Runs the statements of a program in order. -/
def runProgram (n : Nat) : List Stmt → Run Unit
  | [] => return ()
  | s :: rest => do
    let _ ← s.execute n
    runProgram n rest

end Lox
