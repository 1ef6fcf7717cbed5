import Lox.Evaluation

/-!
# Steps of evaluation

Evaluation of the statements that take several steps, with a name for each step.
-/

namespace Lox

open Procedure Run

variable {α β : Type}

namespace Procedure

/-- What has come before when two parts of a run have ended normally. -/
theorem of_bind_ok {σ ε : Type} {x : Procedure σ ε α} {f : α → Procedure σ ε β} {s t : σ} {b : β}
    (h : (x >>= f) s = .ok b t) : ∃ a u, x s = .ok a u ∧ f a u = .ok b t := by
  rw [bind_apply] at h
  cases hx : x s with
  | ok a u =>
    rw [hx] at h
    exact ⟨a, u, rfl, h⟩
  | error e u =>
    rw [hx] at h
    cases h
  | exhausted =>
    rw [hx] at h
    cases h

theorem afterwards_of_exhausted {σ ε : Type} {f : σ → σ} {x : Procedure σ ε α} {s : σ}
    (h : x s = .exhausted) : afterwards f x s = .exhausted := by rw [afterwards, h]

end Procedure

namespace Run

theorem valueOf_apply (id : NodeId) (name : String) (line : Nat) (m : Machine) :
    valueOf id name line m =
      match m.valueOf? id name with
      | some value => .ok value m
      | none => .error ⟨.undefinedVariable name, line⟩ m := by
  cases h : m.valueOf? id name <;> simp [valueOf, bind_apply, Procedure.read, raise, fail, h]

/-- A variable whose node has no depth is global. -/
theorem valueOf_global {m : Machine} {id : NodeId} {name : String} {line : Nat} {value : Value}
    (hdepth : m.depths[id]? = none) (hvalue : m.global? name = some value) :
    valueOf id name line m = .ok value m := by
  rw [valueOf_apply, Machine.valueOf?, hdepth]
  simp only [hvalue]

theorem assign_apply (target : Reference) (value : Value) (m : Machine) :
    assign target value m =
      match m.assignee? target.id target.name.text with
      | some scope => .ok () { m with store := m.store.put scope target.name.text value }
      | none => .error ⟨.undefinedVariable target.name.text, target.name.line⟩ m := by
  cases h : m.assignee? target.id target.name.text <;>
    simp [assign, bind_apply, Procedure.read, update, raise, fail, h]

theorem asCall_apply (line : Nat) (x : Run α) (m : Machine) :
    asCall line x m =
      if m.maxCallDepth ≤ m.callDepth then .error ⟨.stackOverflow, line⟩ m
      else afterwards (fun m => { m with callDepth := m.callDepth - 1 }) x
        { m with callDepth := m.callDepth + 1 } := by
  by_cases h : m.maxCallDepth ≤ m.callDepth <;>
    simp [asCall, bind_apply, Procedure.read, update, raise, fail, h]

theorem inEnvironment_apply (env : Environment) (x : Run α) (m : Machine) :
    inEnvironment env x m =
      afterwards (fun after => { after with environment := m.environment }) x
        { m with environment := env } := rfl

theorem write_of_takes {m : Machine} {text : String} (line : Nat) (h : m.output.takes text = true) :
    write text line m =
      .ok () { m with output := { m.output with text := m.output.text ++ text } } := by
  rw [write, if_pos h, Output.written_of_takes h]

theorem newScope_apply (env : Environment) (bindings : Table Value) (m : Machine) :
    newScope env bindings m =
      .ok (env.inner m.store.size) { m with store := m.store.push bindings } := rfl

/-- What has come before when a part of a run in another environment has ended normally. -/
theorem of_inEnvironment_ok {m after : Machine} {env : Environment} {x : Run α} {a : α}
    (h : inEnvironment env x m = .ok a after) :
    ∃ inner, x { m with environment := env } = .ok a inner ∧
      after = { inner with environment := m.environment } := by
  rw [inEnvironment_apply, afterwards] at h
  cases hx : x { m with environment := env } with
  | ok a inner =>
    rw [hx] at h
    cases h
    exact ⟨inner, rfl, rfl⟩
  | error e inner =>
    rw [hx] at h
    cases h
  | exhausted =>
    rw [hx] at h
    cases h

/-- The value that a variable is declared with. -/
def initialValue (n : Nat) : Option Expr → Run Value
  | some e => e.evaluate n
  | none => pure .nil

/-- The class that a class inherits from, if any. -/
def superclass? : Option Reference → Run (Option Class)
  | some target => do
    match ← valueOf target.id target.name.text target.name.line with
    | .ofClass c => pure (some c)
    | _ => raise (.wrongType .superclassNotClass) target.name.line
  | none => pure none

/-- The environment of the methods of a class: a scope for `super`, if the class inherits. -/
def methodClosure (superclass : Option Class) : Run Environment := do
  let outside ← read Machine.environment
  match superclass with
  | some c => newScope outside (.ofList [("super", .ofClass c)])
  | none => pure outside

/-- The body of a function, in a new scope with its parameters. -/
def callBody (n : Nat) (f : Function) (arguments : List Value) : Run Completion := do
  let params := f.declaration.params.map Identifier.text
  let frame ← newScope f.closure (.ofList (params.zip arguments))
  inEnvironment frame (executeAll n f.declaration.body)

/-- The result of a call, when the body has ended. -/
def callResult (f : Function) (line : Nat) (completion : Completion) : Run Value := do
  if f.isInitializer then
    match ← read fun m => f.closure.getAt? m.store 0 "this" with
    | some object => return object
    | none => raise (.undefinedVariable "this") line
  else
    match completion with
    | .returned value => return value
    | .normal => return .nil

end Run

theorem Function.enter_succ (n : Nat) (f : Function) (arguments : List Value) (line : Nat) :
    f.enter (n + 1) arguments line = callBody n f arguments >>= callResult f line := by
  rw [Function.enter]
  rfl

namespace Stmt

theorem execute_var (n : Nat) (name : Identifier) (initial : Option Expr) :
    (var name initial).execute (n + 1) = (do
      let value ← initialValue n initial
      define name.text value
      return .normal) := by
  cases initial <;> rfl

theorem execute_conditional (n : Nat) (condition : Expr) (thenBranch : Stmt)
    (elseBranch : Option Stmt) :
    (conditional condition thenBranch elseBranch).execute (n + 1) = (do
      if (← condition.evaluate n).isTruthy then
        thenBranch.execute n
      else
        match elseBranch with
        | some elseBranch => elseBranch.execute n
        | none => return .normal) := by
  cases elseBranch <;> rfl

theorem execute_ret (n line : Nat) (value : Option Expr) :
    (ret line value).execute (n + 1) = (do
      let value ← initialValue n value
      return .returned value) := by
  cases value <;> rfl

theorem execute_classDef (n : Nat) (name : Identifier) (superclass : Option Reference)
    (methods : List FunctionDef) :
    (classDef name superclass methods).execute (n + 1) = (do
      let superclass ← superclass? superclass
      define name.text .nil
      let closure ← methodClosure superclass
      let id ← freshIdentity (methods.length + 1)
      let table := Machine.methodTable (id + 1) closure methods
      define name.text (.ofClass ⟨id, name.text, superclass, table⟩)
      return .normal) := by
  have common : ∀ superclass : Option Class, (do
      define name.text .nil
      let outside ← Procedure.read Machine.environment
      let closure ← match superclass with
        | some c => newScope outside (.ofList [("super", .ofClass c)])
        | none => pure outside
      let id ← freshIdentity (methods.length + 1)
      let table := Machine.methodTable (id + 1) closure methods
      define name.text (.ofClass ⟨id, name.text, superclass, table⟩)
      return .normal : Run Completion) = (do
      define name.text .nil
      let closure ← methodClosure superclass
      let id ← freshIdentity (methods.length + 1)
      let table := Machine.methodTable (id + 1) closure methods
      define name.text (.ofClass ⟨id, name.text, superclass, table⟩)
      return .normal) := by
    intro superclass
    cases superclass <;> rfl
  cases superclass with
  | none => exact common none
  | some target =>
    rw [execute, superclass?]
    simp only [bind_assoc]
    refine congrArg (valueOf _ _ _ >>= ·) (funext fun value => ?_)
    cases value with
    | ofClass c => exact common (some c)
    | _ => rfl

end Stmt

end Lox
