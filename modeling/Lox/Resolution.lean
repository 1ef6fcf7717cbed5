import Lox.Diagnostic
import Lox.Syntax
import Lox.Table

/-!
# Resolution

A walk over a program that finds, for each reference to a local variable, how many scopes lie
between the reference and the scope that declares it, and checks the rules of scoping on the way.
Faults do not end the walk. Names of the global scope are not resolved: there is no scope for it
here.

## Implementation notes

A scope holds its names with whether they are defined yet; a name whose initial value is being read
is declared only. The scopes, the depths and the faults are kept newest first.
-/

namespace Lox

/-- What kind of function surrounds a place. -/
inductive FunctionContext where
  | outside
  | function
  | method
  | initializer
deriving DecidableEq

/-- What kind of class surrounds a place. -/
inductive ClassContext where
  | outside
  | base
  | derived
deriving DecidableEq

structure Resolution where
  scopes : List (Table Bool)
  depths : List (NodeId × Nat)
  faults : List Diagnostic
  functionContext : FunctionContext
  classContext : ClassContext

namespace Resolution

/-- The state before a program. -/
def start : Resolution := ⟨[], [], [], .outside, .outside⟩

def report (r : Resolution) (fault : ScopeFault) (line : Nat) : Resolution :=
  { r with faults := ⟨.scoping fault, line⟩ :: r.faults }

/-- Opens a scope with these names, all defined. -/
def opened (r : Resolution) (names : List String) : Resolution :=
  { r with scopes := Table.ofList (names.map (·, true)) :: r.scopes }

def closed (r : Resolution) : Resolution := { r with scopes := r.scopes.tail }

/-- Puts a name into the innermost scope, if there is one. -/
def mark (r : Resolution) (name : String) (isDefined : Bool) : Resolution :=
  match r.scopes with
  | [] => r
  | scope :: outer => { r with scopes := scope.insert name isDefined :: outer }

/-- Whether the innermost scope has this name already. -/
def declares (r : Resolution) (name : String) : Bool :=
  r.scopes.head?.any (·.contains name)

def declare (r : Resolution) (name : Identifier) : Resolution :=
  let marked := r.mark name.text false
  if r.declares name.text then marked.report .alreadyDeclared name.line else marked

def define (r : Resolution) (name : Identifier) : Resolution := r.mark name.text true

/-- The number of scopes inside the innermost one that has this name. -/
def depth? (r : Resolution) (name : String) : Option Nat :=
  r.scopes.findIdx? (·.contains name)

/-- Records the depth of a reference, unless it is global. -/
def locate (r : Resolution) (id : NodeId) (name : String) : Resolution :=
  match r.depth? name with
  | some depth => { r with depths := (id, depth) :: r.depths }
  | none => r

/-- Whether this name is being declared in the innermost scope. -/
def isInitializing (r : Resolution) (name : String) : Bool :=
  r.scopes.head?.any (·.get? name = some false)

/-- A use of a variable's value. -/
def reference (r : Resolution) (target : Reference) : Resolution :=
  let checked := if r.isInitializing target.name.text then
      r.report .readInOwnInitializer target.name.line
    else r
  checked.locate target.id target.name.text

theorem closed_opened (r : Resolution) (names : List String) : (r.opened names).closed = r := rfl

/-- One more scope hides the names it has and lies between the others and their scopes. -/
theorem depth?_opened (r : Resolution) (names : List String) (name : String) :
    (r.opened names).depth? name = if name ∈ names then some 0 else (r.depth? name).map (· + 1) := by
  have h : (Table.ofList (names.map (·, true))).contains name = decide (name ∈ names) := by
    rw [Bool.eq_iff_iff, Table.contains_ofList_iff]
    simp
  simp [depth?, opened, List.findIdx?_cons, h]

mutual

def expr (r : Resolution) : Expr → Resolution
  | .literal _ => r
  | .unary _ operand _ => r.expr operand
  | .binary left _ right _ => (r.expr left).expr right
  | .logical left _ right => (r.expr left).expr right
  | .grouping inner => r.expr inner
  | .reference target => r.reference target
  | .assign target value => (r.expr value).locate target.id target.name.text
  | .call callee arguments _ => (r.expr callee).exprs arguments
  | .get object _ => r.expr object
  | .set object _ value => (r.expr value).expr object
  | .this id line =>
    if r.classContext = .outside then r.report .thisOutsideClass line else r.locate id "this"
  | .super id line _ =>
    match r.classContext with
    | .outside => r.report .superOutsideClass line
    | .base => r.report .superWithoutSuperclass line
    | .derived => r.locate id "super"

def exprs (r : Resolution) : List Expr → Resolution
  | [] => r
  | e :: rest => (r.expr e).exprs rest

end

/-- A value, if there is one. -/
def expr? (r : Resolution) : Option Expr → Resolution
  | some e => r.expr e
  | none => r

/-- The rules for `return`, whose value is not visited. -/
def checkReturn (r : Resolution) (line : Nat) (hasValue : Bool) : Resolution :=
  let checked := if r.functionContext = .outside then r.report .returnOutsideFunction line else r
  if hasValue && r.functionContext = .initializer then
    checked.report .valueReturnedFromInitializer line
  else checked

/-- Declares each parameter of a function. -/
def parameters (r : Resolution) (params : List Identifier) : Resolution :=
  params.foldl (fun r param => (r.declare param).define param) r

def methodContext (name : Identifier) : FunctionContext :=
  if name.text = initializerName then .initializer else .method

/-- The superclass of `name`, visited in the scope around the class, and the scope of `super`. -/
def superclass (r : Resolution) (name : Identifier) : Option Reference → Resolution
  | some target =>
    let checked := if target.name.text = name.text then
        r.report .inheritsFromItself target.name.line
      else r
    (({ checked with classContext := .derived }).reference target).opened ["super"]
  | none => r

mutual

def stmt (r : Resolution) : Stmt → Resolution
  | .expression value => r.expr value
  | .print value => r.expr value
  | .var name initial => ((r.declare name).expr? initial).define name
  | .block body => ((r.opened []).stmts body).closed
  | .conditional condition thenBranch none => (r.expr condition).stmt thenBranch
  | .conditional condition thenBranch (some elseBranch) =>
    ((r.expr condition).stmt thenBranch).stmt elseBranch
  | .whileLoop condition body => (r.expr condition).stmt body
  | .function declaration =>
    ((r.declare declaration.name).define declaration.name).function .function declaration
  | .ret line value => (r.checkReturn line value.isSome).expr? value
  | .classDef name superclass methods =>
    let inside := { ((r.declare name).define name) with classContext := .base }
    let visited := ((inside.superclass name superclass).opened ["this"]).methods methods |>.closed
    let left := if superclass.isSome then visited.closed else visited
    { left with classContext := r.classContext }

def stmts (r : Resolution) : List Stmt → Resolution
  | [] => r
  | s :: rest => (r.stmt s).stmts rest

/-- A function's parameters and its body share a scope. -/
def function (r : Resolution) (context : FunctionContext) : FunctionDef → Resolution
  | ⟨_, params, body⟩ =>
    let inside := ({ r with functionContext := context }).opened []
    let visited := ((inside.parameters params).stmts body).closed
    { visited with functionContext := r.functionContext }

def methods (r : Resolution) : List FunctionDef → Resolution
  | [] => r
  | declaration :: rest =>
    (r.function (methodContext declaration.name) declaration).methods rest

end

end Resolution

/-- The depths of a program's local references, or the faults in the order in which they were
found. -/
def resolve (statements : List Stmt) : Except (List Diagnostic) (List (NodeId × Nat)) :=
  let r := Resolution.start.stmts statements
  if r.faults.isEmpty then .ok r.depths.reverse else .error r.faults.reverse

end Lox
