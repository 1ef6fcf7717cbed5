import Std.Data.HashMap
import Lox.Procedure
import Lox.Failure

/-!
# The machine

The state of a run: the scopes, the fields of instances, the current environment, the number of
calls under way, the depths of resolved references, the host's functions and the output; and the
steps on it that evaluation is made of.

## Implementation notes

The state is handed on, never kept beside its successor, so that its arrays are changed in place.
The scopes are never removed.
-/

namespace Lox

/-- A function of the host. Its failure is a message. -/
abbrev HostFunction := List Value → Except String Value

/-- How many characters are accepted of the second text, after the first one has been written. -/
abbrev Sink := String → String → Nat

/-- The sink that accepts everything. -/
def Sink.everything : Sink := fun _ next => next.length

/-- The text printed, and the sink for more. -/
structure Output where
  text : String
  accepts : Sink

namespace Output

/-- An empty output that accepts everything. -/
def unlimited : Output := ⟨"", Sink.everything⟩

/-- The number of line breaks in a text. -/
def lineCount (text : String) : Nat := text.foldl (fun n c => if c = '\n' then n + 1 else n) 0

/-- An empty output that accepts more text until it has this many line breaks. -/
def limited (lines : Nat) : Output :=
  ⟨"", fun text next => if lineCount text < lines then next.length else 0⟩

/-- The whole text is accepted next. -/
def takes (o : Output) (next : String) : Bool := next.length ≤ o.accepts o.text next

/-- The output with as much of the text behind it as is accepted. -/
def written (o : Output) (next : String) : Output :=
  { o with text := o.text ++ String.ofList (next.toList.take (o.accepts o.text next)) }

theorem takes_of_everything {o : Output} (h : o.accepts = Sink.everything) (next : String) :
    o.takes next = true := by
  rw [takes, h]
  exact decide_eq_true (Nat.le_refl _)

theorem written_of_takes {o : Output} {next : String} (h : o.takes next = true) :
    o.written next = { o with text := o.text ++ next } := by
  have hle : next.toList.length ≤ o.accepts o.text next := of_decide_eq_true h
  rw [written, List.take_of_length_le hle, String.ofList_toList]

/-- What is written of a text begins it. -/
theorem exists_rest_of_written (o : Output) (next : String) :
    ∃ rest, o.text ++ next = (o.written next).text ++ rest := by
  let accepted := o.accepts o.text next
  refine ⟨String.ofList (next.toList.drop accepted), ?_⟩
  rw [written, String.append_assoc, ← String.ofList_append, List.take_append_drop, String.ofList_toList]

end Output

structure Machine where
  store : Store Value
  fields : Store Value
  /-- The identity of the next function or class. -/
  nextIdentity : Nat
  environment : Environment
  callDepth : Nat
  maxCallDepth : Nat
  depths : Std.HashMap NodeId Nat
  hostFunctions : Array HostFunction
  output : Output

/-- How a statement ends: normally, or with a return on its way to the call. -/
inductive Completion where
  | normal
  | returned (value : Value)

/-- The deepest nesting of calls. -/
def defaultMaxCallDepth : Nat := 255

namespace Machine

/-- A machine with an empty global scope. -/
def empty : Machine where
  store := Store.empty.push ∅
  fields := .empty
  nextIdentity := 0
  environment := .global
  callDepth := 0
  maxCallDepth := defaultMaxCallDepth
  depths := ∅
  hostFunctions := #[]
  output := .unlimited

/-- Binds a global variable. -/
def defineGlobal (m : Machine) (name : String) (value : Value) : Machine :=
  { m with store := Environment.global.define m.store name value }

/-- The value of a global variable. -/
def global? (m : Machine) (name : String) : Option Value := Environment.global.get? m.store name

/-- Makes a function of the host known under a global name. -/
def register (m : Machine) (name : String) (arity : Nat) (f : HostFunction) : Machine :=
  { m with hostFunctions := m.hostFunctions.push f }.defineGlobal name
    (.native ⟨m.hostFunctions.size, name, arity⟩)

/-- The value of a variable: in the scope that resolution found, or else global. -/
def valueOf? (m : Machine) (id : NodeId) (name : String) : Option Value :=
  match m.depths[id]? with
  | some depth => m.environment.getAt? m.store depth name
  | none => m.global? name

/-- The scope that an assignment to a variable writes, if there is one. -/
def assignee? (m : Machine) (id : NodeId) (name : String) : Option ScopeId :=
  match m.depths[id]? with
  | some depth => (m.environment.ancestor? depth).map Environment.scope
  | none => Environment.global.scopeOf? m.store name

/-- Methods of a class, numbered from the next identity on. -/
def methodTable (firstId : Nat) (closure : Environment) (declarations : List FunctionDef) :
    Table Function :=
  .ofList (declarations.mapIdx fun i declaration =>
    (declaration.name.text,
      ⟨firstId + i, declaration, closure, declaration.name.text = initializerName⟩))

end Machine

/-- A part of a run, which fails with a runtime error. -/
abbrev Run := Procedure Machine Failure

namespace Run

open Procedure

variable {α : Type}

@[inline] def raise (fault : RuntimeFault) (line : Nat) : Run α := fail ⟨fault, line⟩

/-- A result, or its fault at a line. -/
@[inline] def located (line : Nat) : Except RuntimeFault α → Run α
  | .ok a => pure a
  | .error fault => raise fault line

/-- Runs `x` in another environment. Afterwards the environment is the one before, however `x`
ended. -/
@[inline] def inEnvironment (env : Environment) (x : Run α) : Run α := do
  let before ← read Machine.environment
  update fun m => { m with environment := env }
  afterwards (fun m => { m with environment := before }) x

/-- Runs `x` as a call, unless too many are under way. -/
@[inline] def asCall (line : Nat) (x : Run α) : Run α := do
  if (← read Machine.maxCallDepth) ≤ (← read Machine.callDepth) then
    raise .stackOverflow line
  else
    update fun m => { m with callDepth := m.callDepth + 1 }
    afterwards (fun m => { m with callDepth := m.callDepth - 1 }) x

def valueOf (id : NodeId) (name : String) (line : Nat) : Run Value := do
  match ← read (·.valueOf? id name) with
  | some value => return value
  | none => raise (.undefinedVariable name) line

def define (name : String) (value : Value) : Run Unit :=
  update fun m => { m with store := m.environment.define m.store name value }

def assign (target : Reference) (value : Value) : Run Unit := do
  match ← read (·.assignee? target.id target.name.text) with
  | some scope => update fun m => { m with store := m.store.put scope target.name.text value }
  | none => raise (.undefinedVariable target.name.text) target.name.line

/-- Adds a scope inside `env`. -/
def newScope (env : Environment) (bindings : Table Value) : Run Environment := do
  let inner ← read fun m => env.inner m.store.size
  update fun m => { m with store := m.store.push bindings }
  return inner

/-- Takes the next identities for functions and classes. -/
def freshIdentity (count : Nat) : Run Nat := do
  let id ← read Machine.nextIdentity
  update fun m => { m with nextIdentity := m.nextIdentity + count }
  return id

/-- A copy of a method whose closure is a new scope with `this` in it. -/
def bind (method : Function) (object : Instance) : Run Function := do
  let closure ← newScope method.closure (.ofList [("this", .ofInstance object)])
  return { method with id := ← freshIdentity 1, closure }

/-- A new instance without fields. -/
def instantiate (c : Class) : Run Instance := do
  let id ← read (·.fields.size)
  update fun m => { m with fields := m.fields.push ∅ }
  return ⟨id, c⟩

/-- The value of a property: a field, or else a method bound to the instance. -/
def property (object : Instance) (name : Identifier) : Run Value := do
  match ← read (·.fields.get? object.id name.text) with
  | some value => return value
  | none =>
    match object.ofClass.findMethod? name.text with
    | some method => return .function (← bind method object)
    | none => raise (.undefinedProperty name.text) name.line

def setField (object : Instance) (name : String) (value : Value) : Run Unit :=
  update fun m => { m with fields := m.fields.put object.id name value }

/-- The method `super.method`, found from the superclass on and bound to the instance that `this`
denotes, one scope inside that of `super`. -/
def superMethod (id : NodeId) (line : Nat) (method : Identifier) : Run Value := do
  let some depth ← read (·.depths[id]?) | raise (.undefinedVariable "super") line
  let some superclass ← read fun m => m.environment.getAt? m.store depth "super"
    | raise (.undefinedVariable "super") line
  let some object ← read fun m => m.environment.getAt? m.store (depth - 1) "this"
    | raise (.undefinedVariable "this") line
  match superclass, object with
  | .ofClass superclass, .ofInstance object =>
    match superclass.findMethod? method.text with
    | some found => return .function (← bind found object)
    | none => raise (.undefinedProperty method.text) method.line
  | _, _ => raise (.wrongType .superclassNotClass) line

/-- Writes text; `line` is where it is reported that not all of it is accepted. -/
def write (text : String) (line : Nat) : Run Unit := fun m =>
  let after := { m with output := m.output.written text }
  if m.output.takes text then .ok () after else .error ⟨.outputClosed, line⟩ after

/-- Calls a function of the host. -/
def callHost (f : Native) (arguments : List Value) (line : Nat) : Run Value := do
  match ← read (·.hostFunctions[f.id]?) with
  | some host =>
    match host arguments with
    | .ok value => return value
    | .error message => raise (.native message) line
  | none => return .nil

end Run

end Lox
