import Lox.Host
import Lox.Proofs.Evaluation.Content

/-!
# Lexical scoping

A second semantics, by which evaluation is judged. A local environment is an immutable map from names
to the places of variables. Each declaration extends a copy of the map with a new place, a function
keeps the map of its declaration, and a name that is not in the map is looked up among the global
variables when it is used.

## Implementation notes

Only the treatment of names differs from evaluation, and with it what functions hold. Operators,
conditions and `print` are shared: they see of a value only its content.
-/

namespace Lox.Lexical

/-- The place of a local variable. -/
abbrev Location := Nat

/-- Where names are looked up: among the global variables only, or first among local ones, newest
first. -/
inductive Scope where
  | global
  | inside (locations : List (String × Location))

namespace Scope

def locations : Scope → List (String × Location)
  | global => []
  | inside locations => locations

/-- The place of the newest local variable of this name. -/
def location? (scope : Scope) (name : String) : Option Location := scope.locations.lookup name

/-- A copy of the map with one more variable. -/
def extend (scope : Scope) (name : String) (location : Location) : Scope :=
  inside ((name, location) :: scope.locations)

end Scope

/-- A declared function with the map of its declaration. -/
structure Function where
  id : Nat
  declaration : FunctionDef
  captured : Scope
  isInitializer : Bool

def Function.arity (f : Function) : Nat := f.declaration.params.length

structure Class where
  id : Nat
  name : String
  superclass : Option Class
  methods : Table Function

namespace Class

def findMethod? (name : String) : Class → Option Function
  | ⟨_, _, none, methods⟩ => methods.get? name
  | ⟨_, _, some superclass, methods⟩ => (methods.get? name).or (superclass.findMethod? name)

def initializer? (c : Class) : Option Function := c.findMethod? initializerName

def arity (c : Class) : Nat := (c.initializer?.map Function.arity).getD 0

end Class

structure Instance where
  id : Nat
  ofClass : Class

inductive Value where
  | nil
  | bool (value : Bool)
  | number (value : Number)
  | string (value : String)
  | native (function : Native)
  | function (function : Function)
  | ofClass (value : Class)
  | ofInstance (value : Instance)

namespace Value

def arity? : Value → Option Nat
  | native f => some f.arity
  | function f => some f.arity
  | ofClass c => some c.arity
  | _ => none

/-- What operators, conditions and `print` see of a value. -/
def content : Value → Lox.Value
  | nil => .nil
  | bool value => .bool value
  | number value => .number value
  | string value => .string value
  | native f => .native f
  | function f => .function ⟨f.id, ⟨⟨f.declaration.name.text, 0⟩, [], []⟩, .global, false⟩
  | ofClass c => .ofClass ⟨c.id, c.name, none, ∅⟩
  | ofInstance object => .ofInstance ⟨object.id, ⟨0, object.ofClass.name, none, ∅⟩⟩

/-- The value of a literal or the result of an operator. -/
def ofPlain : Lox.Value → Value
  | .bool value => bool value
  | .number value => number value
  | .string value => string value
  | _ => nil

end Value

structure State where
  /-- The local variables, by place. -/
  cells : Array Value
  globals : Table Value
  fields : Store Value
  nextIdentity : Nat
  callDepth : Nat
  maxCallDepth : Nat
  /-- The time, which the one function of the host gives. -/
  now : Number
  output : Output

/-- The state in which a program starts. -/
def State.start (now : Number) (output : Output) : State where
  cells := #[]
  globals := Table.empty.insert "clock" (.native ⟨0, "clock", 0⟩)
  fields := .empty
  nextIdentity := 0
  callDepth := 0
  maxCallDepth := defaultMaxCallDepth
  now := now
  output := output

/-- The value of a name: that of the newest local variable, or else of the global one. -/
def State.get? (s : State) (scope : Scope) (name : String) : Option Value :=
  match scope.location? name with
  | some location => s.cells[location]?
  | none => s.globals.get? name

/-- Changes the variable that a name denotes, which has to be there if it is local. -/
def State.put (s : State) (scope : Scope) (name : String) (value : Value) : State :=
  match scope.location? name with
  | some location => { s with cells := s.cells.modify location fun _ => value }
  | none => { s with globals := s.globals.insert name value }

inductive Completion where
  | normal
  | returned (value : Value)

abbrev Run := Procedure State Failure

open Procedure

section

variable {α : Type}

def raise (fault : RuntimeFault) (line : Nat) : Run α := fail ⟨fault, line⟩

/-- The result of an operator, or its fault at a line. -/
def located (line : Nat) : Except RuntimeFault Lox.Value → Run Value
  | .ok value => pure (.ofPlain value)
  | .error fault => raise fault line

def asCall (line : Nat) (x : Run α) : Run α := do
  if (← read State.maxCallDepth) ≤ (← read State.callDepth) then
    raise .stackOverflow line
  else
    update fun s => { s with callDepth := s.callDepth + 1 }
    afterwards (fun s => { s with callDepth := s.callDepth - 1 }) x

end

def valueOf (scope : Scope) (name : String) (line : Nat) : Run Value := do
  match ← read (·.get? scope name) with
  | some value => return value
  | none => raise (.undefinedVariable name) line

def put (scope : Scope) (name : String) (value : Value) : Run Unit := update (·.put scope name value)

def assign (scope : Scope) (name : Identifier) (value : Value) : Run Unit := do
  let _ ← valueOf scope name.text name.line
  put scope name.text value

/-- Makes a local variable and extends a copy of the map with it. The value may hold this map. -/
def extend (scope : Scope) (name : String) (value : Scope → Value) : Run Scope := do
  let inner := scope.extend name (← read (·.cells.size))
  update fun s => { s with cells := s.cells.push (value inner) }
  return inner

/-- Makes a variable, which is local inside a block and global outside. -/
def declare (scope : Scope) (name : String) (value : Scope → Value) : Run Scope :=
  match scope with
  | .global => do
    put .global name (value .global)
    return .global
  | .inside _ => extend scope name value

/-- Makes the local variables of a call. -/
def extendAll (scope : Scope) : List (String × Value) → Run Scope
  | [] => return scope
  | (name, value) :: rest => do extendAll (← extend scope name fun _ => value) rest

def freshIdentity (count : Nat) : Run Nat := do
  let id ← read State.nextIdentity
  update fun s => { s with nextIdentity := s.nextIdentity + count }
  return id

/-- A copy of a method that keeps a map with `this` in it. -/
def bind (method : Function) (object : Instance) : Run Function := do
  let captured ← extend method.captured "this" fun _ => .ofInstance object
  return { method with id := ← freshIdentity 1, captured }

def instantiate (c : Class) : Run Instance := do
  let id ← read (·.fields.size)
  update fun s => { s with fields := s.fields.push ∅ }
  return ⟨id, c⟩

def property (object : Instance) (name : Identifier) : Run Value := do
  match ← read (·.fields.get? object.id name.text) with
  | some value => return value
  | none =>
    match object.ofClass.findMethod? name.text with
    | some method => return .function (← bind method object)
    | none => raise (.undefinedProperty name.text) name.line

def setField (object : Instance) (name : String) (value : Value) : Run Unit :=
  update fun s => { s with fields := s.fields.put object.id name value }

def superMethod (scope : Scope) (line : Nat) (method : Identifier) : Run Value := do
  let superclass ← valueOf scope "super" line
  let object ← valueOf scope "this" line
  match superclass, object with
  | .ofClass superclass, .ofInstance object =>
    match superclass.findMethod? method.text with
    | some found => return .function (← bind found object)
    | none => raise (.undefinedProperty method.text) method.line
  | _, _ => raise (.wrongType .superclassNotClass) line

def write (text : String) (line : Nat) : Run Unit := fun s =>
  let after := { s with output := s.output.written text }
  if s.output.takes text then .ok () after else .error ⟨.outputClosed, line⟩ after

/-- Methods of a class, numbered from the next identity on. -/
def methodTable (firstId : Nat) (captured : Scope) (declarations : List FunctionDef) :
    Table Function :=
  .ofList (declarations.mapIdx fun i declaration =>
    (declaration.name.text,
      ⟨firstId + i, declaration, captured, declaration.name.text = initializerName⟩))

mutual

def evaluate : Nat → Scope → Expr → Run Value
  | 0, _, _ => exhaust
  | n + 1, scope, e =>
    match e with
    | .literal value => return .ofPlain (.ofLiteral value)
    | .grouping inner => evaluate n scope inner
    | .unary operator operand line => do
      let value ← evaluate n scope operand
      located line (operator.apply value.content)
    | .binary left operator right line => do
      let a ← evaluate n scope left
      let b ← evaluate n scope right
      located line (operator.apply a.content b.content)
    | .logical left operator right => do
      let value ← evaluate n scope left
      if operator.decides value.content then return value else evaluate n scope right
    | .reference target => valueOf scope target.name.text target.name.line
    | .assign target value => do
      let value ← evaluate n scope value
      assign scope target.name value
      return value
    | .call callee arguments line => do
      let callee ← evaluate n scope callee
      let arguments ← evaluateAll n scope arguments
      match callee.arity? with
      | none => raise .notCallable line
      | some arity =>
        if arguments.length = arity then
          asCall line (apply n callee arguments line)
        else
          raise (.arityMismatch arity arguments.length) line
    | .get object name => do
      match ← evaluate n scope object with
      | .ofInstance object => property object name
      | _ => raise .propertyOfNonInstance name.line
    | .set object name value => do
      match ← evaluate n scope object with
      | .ofInstance object =>
        let value ← evaluate n scope value
        setField object name.text value
        return value
      | _ => raise .fieldOfNonInstance name.line
    | .this _ line => valueOf scope "this" line
    | .super _ line method => superMethod scope line method

def evaluateAll : Nat → Scope → List Expr → Run (List Value)
  | 0, _, _ => exhaust
  | _ + 1, _, [] => return []
  | n + 1, scope, e :: rest => do
    let value ← evaluate n scope e
    return value :: (← evaluateAll n scope rest)

def apply : Nat → Value → List Value → Nat → Run Value
  | 0, _, _, _ => exhaust
  | n + 1, callee, arguments, line =>
    match callee with
    | .native _ => do return .number (← read State.now)
    | .function f => enter n f arguments line
    | .ofClass c => do
      let object ← instantiate c
      match c.initializer? with
      | some initializer =>
        let bound ← bind initializer object
        let _ ← enter n bound arguments line
        return .ofInstance object
      | none => return .ofInstance object
    | _ => raise .notCallable line

/-- Runs the body of a function with the map that it keeps, extended with its parameters. -/
def enter : Nat → Function → List Value → Nat → Run Value
  | 0, _, _, _ => exhaust
  | n + 1, f, arguments, line => do
    let params := f.declaration.params.map Identifier.text
    let scope ← extendAll (.inside f.captured.locations) (params.zip arguments)
    let completion ← executeAll n scope f.declaration.body
    if f.isInitializer then
      valueOf f.captured "this" line
    else
      match completion with
      | .returned value => return value
      | .normal => return .nil

/-- Runs a statement; what follows it is run with the map that it gives. -/
def execute : Nat → Scope → Stmt → Run (Completion × Scope)
  | 0, _, _ => exhaust
  | n + 1, scope, s =>
    match s with
    | .expression value => do
      let _ ← evaluate n scope value
      return (.normal, scope)
    | .print e => do
      let value ← evaluate n scope e
      let line := e.line?.getD 0
      write value.content.display line
      write "\n" line
      return (.normal, scope)
    | .var name initial => do
      let value ← match initial with
        | some e => evaluate n scope e
        | none => pure .nil
      return (.normal, ← declare scope name.text fun _ => value)
    | .block body => do return (← executeAll n (.inside scope.locations) body, scope)
    | .conditional condition thenBranch elseBranch => do
      if (← evaluate n scope condition).content.isTruthy then
        return ((← execute n scope thenBranch).1, scope)
      else
        match elseBranch with
        | some elseBranch => return ((← execute n scope elseBranch).1, scope)
        | none => return (.normal, scope)
    | .whileLoop condition body => do return (← repeatWhile n scope condition body, scope)
    | .function declaration => do
      let id ← freshIdentity 1
      return (.normal, ← declare scope declaration.name.text fun inner =>
        .function ⟨id, declaration, inner, false⟩)
    | .ret _ value => do
      match value with
      | some e => return (.returned (← evaluate n scope e), scope)
      | none => return (.returned .nil, scope)
    | .classDef name superclass methods => do
      let superclass ← match superclass with
        | some target => do
          match ← valueOf scope target.name.text target.name.line with
          | .ofClass c => pure (some c)
          | _ => raise (.wrongType .superclassNotClass) target.name.line
        | none => pure none
      let inner ← declare scope name.text fun _ => .nil
      let captured ← match superclass with
        | some c => extend inner "super" fun _ => .ofClass c
        | none => pure inner
      let id ← freshIdentity (methods.length + 1)
      let table := methodTable (id + 1) captured methods
      put inner name.text (.ofClass ⟨id, name.text, superclass, table⟩)
      return (.normal, inner)

def executeAll : Nat → Scope → List Stmt → Run Completion
  | 0, _, _ => exhaust
  | _ + 1, _, [] => return .normal
  | n + 1, scope, s :: rest => do
    match ← execute n scope s with
    | (.returned value, _) => return .returned value
    | (.normal, inner) => executeAll n inner rest

def repeatWhile : Nat → Scope → Expr → Stmt → Run Completion
  | 0, _, _, _ => exhaust
  | n + 1, scope, condition, body => do
    if (← evaluate n scope condition).content.isTruthy then
      match ← execute n scope body with
      | (.returned value, _) => return .returned value
      | (.normal, _) => repeatWhile n scope condition body
    else
      return .normal

end

/-- Runs the statements of a program in order, outside of all blocks. -/
def runProgram (n : Nat) : List Stmt → Run Unit
  | [] => return ()
  | s :: rest => do
    let _ ← execute n .global s
    runProgram n rest

/-! ### Statements in steps -/

/-- The value that a variable is declared with. -/
def initialValue (n : Nat) (scope : Scope) : Option Expr → Run Value
  | some e => evaluate n scope e
  | none => pure .nil

/-- The class that a class inherits from, if any. -/
def superclass? (scope : Scope) : Option Reference → Run (Option Class)
  | some target => do
    match ← valueOf scope target.name.text target.name.line with
    | .ofClass c => pure (some c)
    | _ => raise (.wrongType .superclassNotClass) target.name.line
  | none => pure none

/-- The map that the methods of a class keep: one with `super`, if the class inherits. -/
def captured (inner : Scope) : Option Class → Run Scope
  | some c => extend inner "super" fun _ => .ofClass c
  | none => pure inner

/-- The body of a function, with the map that it keeps and its parameters. -/
def callBody (n : Nat) (f : Function) (arguments : List Value) : Run Completion := do
  let params := f.declaration.params.map Identifier.text
  let scope ← extendAll (.inside f.captured.locations) (params.zip arguments)
  executeAll n scope f.declaration.body

/-- The result of a call, when the body has ended. -/
def callResult (f : Function) (line : Nat) (completion : Completion) : Run Value :=
  if f.isInitializer then
    valueOf f.captured "this" line
  else
    match completion with
    | .returned value => return value
    | .normal => return .nil

theorem enter_succ (n : Nat) (f : Function) (arguments : List Value) (line : Nat) :
    enter (n + 1) f arguments line = callBody n f arguments >>= callResult f line := by
  rw [enter, callBody]
  simp only [bind_assoc]
  rfl

theorem execute_var (n : Nat) (scope : Scope) (name : Identifier) (initial : Option Expr) :
    execute (n + 1) scope (.var name initial) = (do
      let value ← initialValue n scope initial
      return (.normal, ← declare scope name.text fun _ => value)) := by
  cases initial <;> rfl

theorem execute_conditional (n : Nat) (scope : Scope) (condition : Expr) (thenBranch : Stmt)
    (elseBranch : Option Stmt) :
    execute (n + 1) scope (.conditional condition thenBranch elseBranch) = (do
      if (← evaluate n scope condition).content.isTruthy then
        return ((← execute n scope thenBranch).1, scope)
      else
        match elseBranch with
        | some elseBranch => return ((← execute n scope elseBranch).1, scope)
        | none => return (.normal, scope)) := by
  cases elseBranch <;> rfl

theorem execute_ret (n : Nat) (scope : Scope) (line : Nat) (value : Option Expr) :
    execute (n + 1) scope (.ret line value) = (do
      return (.returned (← initialValue n scope value), scope)) := by
  cases value <;> rfl

theorem execute_classDef (n : Nat) (scope : Scope) (name : Identifier)
    (superclass : Option Reference) (methods : List FunctionDef) :
    execute (n + 1) scope (.classDef name superclass methods) = (do
      let superclass ← superclass? scope superclass
      let inner ← declare scope name.text fun _ => .nil
      let captured ← captured inner superclass
      let id ← freshIdentity (methods.length + 1)
      let table := methodTable (id + 1) captured methods
      put inner name.text (.ofClass ⟨id, name.text, superclass, table⟩)
      return (.normal, inner)) := by
  cases superclass with
  | none => rfl
  | some target =>
    rw [execute, superclass?]
    simp only [bind_assoc]
    refine congrArg (valueOf _ _ _ >>= ·) (funext fun value => ?_)
    cases value <;> rfl

end Lox.Lexical
