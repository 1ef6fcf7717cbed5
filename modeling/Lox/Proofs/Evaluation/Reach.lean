import Mathlib.Logic.Relation
import Lox.Proofs.Evaluation.Steps
import Lox.Proofs.Resolution.Placement

/-!
# Parts of a run

A run consists of tasks, each of which starts others: the operands of an expression, the arguments
and the body of a call, the rounds of a loop. `Starts` lists them with the machine that each of them
finds, which is the one that the task before it left.

## Implementation notes

The relation follows the definitions of evaluation branch by branch. That no branch is missing shows
in the failures: a failure that no part has raised was raised by the task itself.
-/

namespace Lox

open Run

/-- A piece of work of a run. -/
inductive Task where
  | expression (e : Expr)
  | arguments (es : List Expr)
  | application (callee : Value) (arguments : List Value) (line : Nat)
  | entry (f : Function) (arguments : List Value) (line : Nat)
  | statement (s : Stmt)
  | statements (body : List Stmt)
  | loop (condition : Expr) (body : Stmt)
  | program (statements : List Stmt)

/-- A task with the bound on its recursion and the machine that it finds. -/
structure Configuration where
  bound : Nat
  machine : Machine
  task : Task

/-- The failure of an outcome. -/
def Outcome.failure? {σ ε α : Type} : Outcome σ ε α → Option ε
  | .error e _ => some e
  | _ => none

theorem Outcome.failure?_eq_some {σ ε α : Type} {o : Outcome σ ε α} {e : ε} :
    o.failure? = some e ↔ ∃ t, o = .error e t := by
  cases o <;> simp [failure?, eq_comm]

/-- The state that an outcome leaves behind. -/
def Outcome.state? {σ ε α : Type} : Outcome σ ε α → Option σ
  | .ok _ s => some s
  | .error _ s => some s
  | .exhausted => none

/-- The failure that the task ends in. -/
def Configuration.failure? : Configuration → Option Failure
  | ⟨n, m, .expression e⟩ => (e.evaluate n m).failure?
  | ⟨n, m, .arguments es⟩ => (evaluateAll n es m).failure?
  | ⟨n, m, .application callee arguments line⟩ => (callee.apply n arguments line m).failure?
  | ⟨n, m, .entry f arguments line⟩ => (f.enter n arguments line m).failure?
  | ⟨n, m, .statement s⟩ => (s.execute n m).failure?
  | ⟨n, m, .statements body⟩ => (executeAll n body m).failure?
  | ⟨n, m, .loop condition body⟩ => (repeatWhile n condition body m).failure?
  | ⟨n, m, .program statements⟩ => (runProgram n statements m).failure?

/-- The first task starts the second one. -/
inductive Configuration.Starts : Configuration → Configuration → Prop where
  | inner {n m inner} :
      Starts ⟨n + 1, m, .expression (.grouping inner)⟩ ⟨n, m, .expression inner⟩
  | operand {n m operator operand line} :
      Starts ⟨n + 1, m, .expression (.unary operator operand line)⟩ ⟨n, m, .expression operand⟩
  | left {n m left operator right line} :
      Starts ⟨n + 1, m, .expression (.binary left operator right line)⟩ ⟨n, m, .expression left⟩
  | right {n m left operator right line a after} (hleft : left.evaluate n m = .ok a after) :
      Starts ⟨n + 1, m, .expression (.binary left operator right line)⟩
        ⟨n, after, .expression right⟩
  | decider {n m left operator right} :
      Starts ⟨n + 1, m, .expression (.logical left operator right)⟩ ⟨n, m, .expression left⟩
  | undecided {n m left operator right a after} (hleft : left.evaluate n m = .ok a after)
      (h : operator.decides a = false) :
      Starts ⟨n + 1, m, .expression (.logical left operator right)⟩ ⟨n, after, .expression right⟩
  | assigned {n m target value} :
      Starts ⟨n + 1, m, .expression (.assign target value)⟩ ⟨n, m, .expression value⟩
  | callee {n m callee arguments line} :
      Starts ⟨n + 1, m, .expression (.call callee arguments line)⟩ ⟨n, m, .expression callee⟩
  | arguments {n m callee arguments line c after} (hcallee : callee.evaluate n m = .ok c after) :
      Starts ⟨n + 1, m, .expression (.call callee arguments line)⟩ ⟨n, after, .arguments arguments⟩
  | call {n m callee arguments line c after values later}
      (hcallee : callee.evaluate n m = .ok c after)
      (harguments : evaluateAll n arguments after = .ok values later)
      (harity : c.arity? = some values.length) (hdepth : later.callDepth < later.maxCallDepth) :
      Starts ⟨n + 1, m, .expression (.call callee arguments line)⟩
        ⟨n, { later with callDepth := later.callDepth + 1 }, .application c values line⟩
  | getObject {n m object name} :
      Starts ⟨n + 1, m, .expression (.get object name)⟩ ⟨n, m, .expression object⟩
  | setObject {n m object name value} :
      Starts ⟨n + 1, m, .expression (.set object name value)⟩ ⟨n, m, .expression object⟩
  | setValue {n m object name value found after}
      (hobject : object.evaluate n m = .ok (.ofInstance found) after) :
      Starts ⟨n + 1, m, .expression (.set object name value)⟩ ⟨n, after, .expression value⟩
  | firstArgument {n m e rest} :
      Starts ⟨n + 1, m, .arguments (e :: rest)⟩ ⟨n, m, .expression e⟩
  | otherArguments {n m e rest value after} (hfirst : e.evaluate n m = .ok value after) :
      Starts ⟨n + 1, m, .arguments (e :: rest)⟩ ⟨n, after, .arguments rest⟩
  | function {n m f arguments line} :
      Starts ⟨n + 1, m, .application (.function f) arguments line⟩ ⟨n, m, .entry f arguments line⟩
  | initializer {n m c arguments line object after f bound later}
      (hobject : instantiate c m = .ok object after) (hinit : c.initializer? = some f)
      (hbound : Run.bind f object after = .ok bound later) :
      Starts ⟨n + 1, m, .application (.ofClass c) arguments line⟩
        ⟨n, later, .entry bound arguments line⟩
  | functionBody {n m f arguments line frame after}
      (hframe : newScope f.closure (.ofList (f.declaration.paramNames.zip arguments)) m =
        .ok frame after) :
      Starts ⟨n + 1, m, .entry f arguments line⟩
        ⟨n, { after with environment := frame }, .statements f.declaration.body⟩
  | expression {n m value} :
      Starts ⟨n + 1, m, .statement (.expression value)⟩ ⟨n, m, .expression value⟩
  | printed {n m value} :
      Starts ⟨n + 1, m, .statement (.print value)⟩ ⟨n, m, .expression value⟩
  | initial {n m name value} :
      Starts ⟨n + 1, m, .statement (.var name (some value))⟩ ⟨n, m, .expression value⟩
  | block {n m body frame after} (hframe : newScope m.environment ∅ m = .ok frame after) :
      Starts ⟨n + 1, m, .statement (.block body)⟩
        ⟨n, { after with environment := frame }, .statements body⟩
  | condition {n m condition thenBranch elseBranch} :
      Starts ⟨n + 1, m, .statement (.conditional condition thenBranch elseBranch)⟩
        ⟨n, m, .expression condition⟩
  | thenBranch {n m condition thenBranch elseBranch a after}
      (hcondition : condition.evaluate n m = .ok a after) (ha : a.isTruthy = true) :
      Starts ⟨n + 1, m, .statement (.conditional condition thenBranch elseBranch)⟩
        ⟨n, after, .statement thenBranch⟩
  | elseBranch {n m condition thenBranch elseBranch a after}
      (hcondition : condition.evaluate n m = .ok a after) (ha : a.isTruthy = false) :
      Starts ⟨n + 1, m, .statement (.conditional condition thenBranch (some elseBranch))⟩
        ⟨n, after, .statement elseBranch⟩
  | whileLoop {n m condition body} :
      Starts ⟨n + 1, m, .statement (.whileLoop condition body)⟩ ⟨n, m, .loop condition body⟩
  | result {n m line value} :
      Starts ⟨n + 1, m, .statement (.ret line (some value))⟩ ⟨n, m, .expression value⟩
  | superclass {n m name target methods} :
      Starts ⟨n + 1, m, .statement (.classDef name (some target) methods)⟩
        ⟨n + 1, m, .expression (.reference target)⟩
  | firstStatement {n m s rest} :
      Starts ⟨n + 1, m, .statements (s :: rest)⟩ ⟨n, m, .statement s⟩
  | otherStatements {n m s rest after} (hfirst : s.execute n m = .ok .normal after) :
      Starts ⟨n + 1, m, .statements (s :: rest)⟩ ⟨n, after, .statements rest⟩
  | loopCondition {n m condition body} :
      Starts ⟨n + 1, m, .loop condition body⟩ ⟨n, m, .expression condition⟩
  | loopBody {n m condition body a after} (hcondition : condition.evaluate n m = .ok a after)
      (ha : a.isTruthy = true) : Starts ⟨n + 1, m, .loop condition body⟩ ⟨n, after, .statement body⟩
  | nextRound {n m condition body a after later}
      (hcondition : condition.evaluate n m = .ok a after) (ha : a.isTruthy = true)
      (hbody : body.execute n after = .ok .normal later) :
      Starts ⟨n + 1, m, .loop condition body⟩ ⟨n, later, .loop condition body⟩
  | firstOfProgram {n m s rest} : Starts ⟨n, m, .program (s :: rest)⟩ ⟨n, m, .statement s⟩
  | restOfProgram {n m s rest completion after} (hfirst : s.execute n m = .ok completion after) :
      Starts ⟨n, m, .program (s :: rest)⟩ ⟨n, after, .program rest⟩

/-- The first task starts the second one, directly or through others, or is the second one. -/
abbrev Configuration.Reaches : Configuration → Configuration → Prop :=
  Relation.ReflTransGen Configuration.Starts

end Lox
