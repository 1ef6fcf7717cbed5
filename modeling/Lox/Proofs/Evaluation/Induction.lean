import Lox.Proofs.Evaluation.Steps

/-!
# Induction over evaluation

A property of runs holds of everything that evaluation does if it holds of its steps and of the ways
in which evaluation puts runs together. Most steps are plain: the calls under way and the output are
nothing to them. So a property has to be checked only for plain runs, for writing, and for one run
after another, in another environment and as a call.
-/

namespace Lox

open Procedure

/-- An outcome with another state. -/
def Outcome.mapState {σ τ ε α : Type} (f : σ → τ) : Outcome σ ε α → Outcome τ ε α
  | .ok a s => .ok a (f s)
  | .error e s => .error e (f s)
  | .exhausted => .exhausted

/-- The machine with other counts of calls and another output. -/
def Machine.beside (callDepth maxCallDepth : Nat) (output : Output) (m : Machine) : Machine :=
  { m with callDepth, maxCallDepth, output }

namespace Run

/-- The run ends, and it neither looks at the calls under way and the output nor changes them. -/
structure Plain {α : Type} (x : Run α) : Prop where
  ends : ∀ m, x m ≠ .exhausted
  beside : ∀ calls limit output m,
    x (m.beside calls limit output) = (x m).mapState (Machine.beside calls limit output)

namespace Plain

variable {α β : Type} {x : Run α} {f : α → Run β}

/-- The calls and the output after a plain run are those before it. -/
theorem mapState_eq (h : Plain x) (m : Machine) :
    (x m).mapState (.beside m.callDepth m.maxCallDepth m.output) = x m :=
  (h.beside m.callDepth m.maxCallDepth m.output m).symm

theorem pure (a : α) : Plain (Pure.pure a : Run α) := ⟨nofun, fun _ _ _ _ => rfl⟩

theorem raise (fault : RuntimeFault) (line : Nat) : Plain (Run.raise fault line : Run α) :=
  ⟨nofun, fun _ _ _ _ => rfl⟩

theorem read {g : Machine → α}
    (h : ∀ calls limit output m, g (.beside calls limit output m) = g m) :
    Plain (Procedure.read g : Run α) := by
  refine ⟨nofun, fun calls limit output m => ?_⟩
  show Outcome.ok (g (.beside calls limit output m)) _ = _
  rw [h]
  rfl

theorem update {g : Machine → Machine} (h : ∀ calls limit output m,
    g (.beside calls limit output m) = .beside calls limit output (g m)) :
    Plain (Procedure.update g) := by
  refine ⟨nofun, fun calls limit output m => ?_⟩
  show Outcome.ok () (g (.beside calls limit output m)) = _
  rw [h]
  rfl

/-- Two plain runs in a row. -/
theorem bind (hx : Plain x) (hf : ∀ a, Plain (f a)) : Plain (x >>= f) := by
  refine ⟨fun m => ?_, fun calls limit output m => ?_⟩
  · rw [bind_apply]
    cases ho : x m with
    | ok a after => exact (hf a).ends after
    | error e after => exact nofun
    | exhausted => exact absurd ho (hx.ends m)
  · rw [bind_apply, bind_apply, hx.beside]
    cases x m with
    | ok a after => exact (hf a).beside calls limit output after
    | error e after => rfl
    | exhausted => rfl

/-! ### Steps -/

theorem located (line : Nat) (result : Except RuntimeFault α) : Plain (located line result) := by
  cases result with
  | ok a => exact pure a
  | error fault => exact raise fault line

theorem valueOf (id : NodeId) (name : String) (line : Nat) : Plain (valueOf id name line) := by
  refine bind (read fun _ _ _ _ => rfl) fun value => ?_
  cases value with
  | none => exact raise _ _
  | some value => exact pure value

theorem define (name : String) (value : Value) : Plain (define name value) :=
  update fun _ _ _ _ => rfl

theorem assign (target : Reference) (value : Value) : Plain (assign target value) := by
  refine bind (read fun _ _ _ _ => rfl) fun scope => ?_
  cases scope with
  | none => exact raise _ _
  | some scope => exact update fun _ _ _ _ => rfl

theorem newScope (env : Environment) (bindings : Table Value) : Plain (newScope env bindings) :=
  bind (read fun _ _ _ _ => rfl) fun inner => bind (update fun _ _ _ _ => rfl) fun _ => pure inner

theorem freshIdentity (count : Nat) : Plain (freshIdentity count) :=
  bind (read fun _ _ _ _ => rfl) fun id => bind (update fun _ _ _ _ => rfl) fun _ => pure id

theorem bindMethod (method : Function) (object : Instance) : Plain (Run.bind method object) :=
  bind (newScope _ _) fun _ => bind (freshIdentity 1) fun _ => pure _

theorem instantiate (c : Class) : Plain (instantiate c) :=
  bind (read fun _ _ _ _ => rfl) fun _ => bind (update fun _ _ _ _ => rfl) fun _ => pure _

/-- A method that was looked for, bound to an instance. -/
theorem boundMethod (found : Option Function) (object : Instance) (name : Identifier) :
    Plain (match found with
      | some method => do return .function (← Run.bind method object)
      | none => Run.raise (.undefinedProperty name.text) name.line : Run Value) := by
  cases found with
  | none => exact raise _ _
  | some method => exact bind (bindMethod method object) fun _ => pure _

theorem property (object : Instance) (name : Identifier) : Plain (property object name) := by
  refine bind (read fun _ _ _ _ => rfl) fun field => ?_
  cases field with
  | some value => exact pure value
  | none => exact boundMethod _ object name

theorem setField (object : Instance) (name : String) (value : Value) :
    Plain (setField object name value) :=
  update fun _ _ _ _ => rfl

theorem superMethod (id : NodeId) (line : Nat) (method : Identifier) :
    Plain (superMethod id line method) := by
  refine bind (read fun _ _ _ _ => rfl) fun depth => ?_
  cases depth with
  | none => exact raise _ _
  | some depth =>
    refine bind (read fun _ _ _ _ => rfl) fun superclass => ?_
    cases superclass with
    | none => exact raise _ _
    | some superclass =>
      refine bind (read fun _ _ _ _ => rfl) fun object => ?_
      cases object with
      | none => exact raise _ _
      | some object =>
        cases superclass with
        | ofClass c =>
          cases object with
          | ofInstance object => exact boundMethod _ object method
          | _ => exact raise _ _
        | _ => exact raise _ _

theorem callHost (f : Native) (arguments : List Value) (line : Nat) :
    Plain (callHost f arguments line) := by
  refine bind (read fun _ _ _ _ => rfl) fun host => ?_
  cases host with
  | none => exact pure _
  | some host =>
    simp only
    cases host arguments with
    | ok value => exact pure value
    | error message => exact raise _ _

theorem superclass? (target : Option Reference) : Plain (superclass? target) := by
  cases target with
  | none => exact pure none
  | some target =>
    refine bind (valueOf _ _ _) fun value => ?_
    cases value with
    | ofClass c => exact pure (some c)
    | _ => exact raise _ _

theorem methodClosure (superclass : Option Class) : Plain (methodClosure superclass) := by
  refine bind (read fun _ _ _ _ => rfl) fun outside => ?_
  cases superclass with
  | none => exact pure outside
  | some c => exact newScope outside _

theorem callResult (f : Function) (line : Nat) (completion : Completion) :
    Plain (callResult f line completion) := by
  unfold Run.callResult
  split
  · refine bind (read fun _ _ _ _ => rfl) fun object => ?_
    cases object with
    | none => exact raise _ _
    | some object => exact pure object
  · cases completion <;> exact pure _

end Plain

/-- A property that runs have when their parts have it. -/
structure Closed (P : (α : Type) → Run α → Prop) : Prop where
  exhaust {α : Type} : P α Procedure.exhaust
  plain {α : Type} {x : Run α} : x.Plain → P α x
  write (text : String) (line : Nat) : P Unit (write text line)
  bind {α β : Type} {x : Run α} {f : α → Run β} : P α x → (∀ a, P β (f a)) → P β (x >>= f)
  inEnvironment {α : Type} {x : Run α} (env : Environment) : P α x → P α (inEnvironment env x)
  asCall {α : Type} {x : Run α} (line : Nat) : P α x → P α (asCall line x)

/-- All evaluation with the bound `bound` has the property. -/
structure AllHave (P : (α : Type) → Run α → Prop) (bound : Nat) : Prop where
  evaluate : ∀ e : Expr, P Value (e.evaluate bound)
  evaluateAll : ∀ es, P (List Value) (evaluateAll bound es)
  apply : ∀ (callee : Value) arguments line, P Value (callee.apply bound arguments line)
  enter : ∀ (f : Function) arguments line, P Value (f.enter bound arguments line)
  execute : ∀ s : Stmt, P Completion (s.execute bound)
  executeAll : ∀ body, P Completion (executeAll bound body)
  repeatWhile : ∀ condition body, P Completion (repeatWhile bound condition body)

namespace Closed

variable {P : (α : Type) → Run α → Prop} {bound : Nat}

theorem succ_evaluate (h : Closed P) (ih : AllHave P bound) (e : Expr) :
    P Value (e.evaluate (bound + 1)) := by
  cases e with
  | literal value => exact h.plain (.pure _)
  | grouping inner => exact ih.evaluate inner
  | unary operator operand line =>
    exact h.bind (ih.evaluate operand) fun _ => h.plain (.located _ _)
  | binary left operator right line =>
    exact h.bind (ih.evaluate left) fun _ => h.bind (ih.evaluate right) fun _ =>
      h.plain (.located _ _)
  | logical left operator right =>
    rw [Expr.evaluate]
    refine h.bind (ih.evaluate left) fun value => ?_
    split
    · exact h.plain (.pure value)
    · exact ih.evaluate right
  | reference target => exact h.plain (.valueOf _ _ _)
  | assign target value =>
    exact h.bind (ih.evaluate value) fun _ => h.plain (.bind (.assign _ _) fun _ => .pure _)
  | call callee arguments line =>
    rw [Expr.evaluate]
    refine h.bind (ih.evaluate callee) fun callee => ?_
    refine h.bind (ih.evaluateAll arguments) fun arguments => ?_
    split
    · exact h.plain (.raise _ _)
    · split
      · exact h.asCall line (ih.apply _ _ _)
      · exact h.plain (.raise _ _)
  | get object name =>
    rw [Expr.evaluate]
    refine h.bind (ih.evaluate object) fun value => ?_
    split
    · exact h.plain (.property _ _)
    · exact h.plain (.raise _ _)
  | set object name value =>
    rw [Expr.evaluate]
    refine h.bind (ih.evaluate object) fun found => ?_
    split
    · exact h.bind (ih.evaluate value) fun _ => h.plain (.bind (.setField _ _ _) fun _ => .pure _)
    · exact h.plain (.raise _ _)
  | this id line => exact h.plain (.valueOf _ _ _)
  | super id line method => exact h.plain (.superMethod _ _ _)

theorem succ_evaluateAll (h : Closed P) (ih : AllHave P bound) (es : List Expr) :
    P (List Value) (Lox.evaluateAll (bound + 1) es) := by
  cases es with
  | nil => exact h.plain (.pure _)
  | cons e rest =>
    exact h.bind (ih.evaluate e) fun _ => h.bind (ih.evaluateAll rest) fun _ => h.plain (.pure _)

theorem succ_apply (h : Closed P) (ih : AllHave P bound) (callee : Value) (arguments : List Value)
    (line : Nat) : P Value (callee.apply (bound + 1) arguments line) := by
  cases callee with
  | native f => exact h.plain (.callHost _ _ _)
  | function f => exact ih.enter _ _ _
  | ofClass c =>
    rw [Value.apply]
    refine h.bind (h.plain (.instantiate c)) fun object => ?_
    split
    · exact h.bind (h.plain (.bindMethod _ _)) fun _ =>
        h.bind (ih.enter _ _ _) fun _ => h.plain (.pure _)
    · exact h.plain (.pure _)
  | _ => exact h.plain (.raise _ _)

theorem succ_enter (h : Closed P) (ih : AllHave P bound) (f : Function) (arguments : List Value)
    (line : Nat) : P Value (f.enter (bound + 1) arguments line) := by
  rw [Function.enter_succ]
  have hbody : P Completion (callBody bound f arguments) :=
    h.bind (h.plain (.newScope _ _)) fun frame => h.inEnvironment frame (ih.executeAll _)
  exact h.bind hbody fun _ => h.plain (.callResult _ _ _)

theorem initialValue (h : Closed P) (ih : AllHave P bound) (value : Option Expr) :
    P Value (initialValue bound value) := by
  cases value with
  | none => exact h.plain (.pure _)
  | some e => exact ih.evaluate e

theorem succ_execute (h : Closed P) (ih : AllHave P bound) (s : Stmt) :
    P Completion (s.execute (bound + 1)) := by
  cases s with
  | expression value => exact h.bind (ih.evaluate value) fun _ => h.plain (.pure _)
  | print value =>
    exact h.bind (ih.evaluate value) fun _ => h.bind (h.write _ _) fun _ =>
      h.bind (h.write _ _) fun _ => h.plain (.pure _)
  | var name initial =>
    rw [Stmt.execute_var]
    exact h.bind (h.initialValue ih initial) fun _ => h.plain (.bind (.define _ _) fun _ => .pure _)
  | block body =>
    exact h.bind (h.plain (.read fun _ _ _ _ => rfl)) fun env =>
      h.bind (h.plain (.newScope env ∅)) fun scope => h.inEnvironment scope (ih.executeAll body)
  | conditional condition thenBranch elseBranch =>
    rw [Stmt.execute_conditional]
    refine h.bind (ih.evaluate condition) fun value => ?_
    split
    · exact ih.execute thenBranch
    · split
      · exact ih.execute _
      · exact h.plain (.pure _)
  | whileLoop condition body => exact ih.repeatWhile condition body
  | function declaration =>
    exact h.plain (.bind (.read fun _ _ _ _ => rfl) fun _ => .bind (.freshIdentity 1) fun _ =>
      .bind (.define _ _) fun _ => .pure _)
  | ret line value =>
    rw [Stmt.execute_ret]
    exact h.bind (h.initialValue ih value) fun _ => h.plain (.pure _)
  | classDef name superclass methods =>
    rw [Stmt.execute_classDef]
    exact h.plain (.bind (.superclass? superclass) fun c => .bind (.define _ _) fun _ =>
      .bind (.methodClosure c) fun _ => .bind (.freshIdentity _) fun _ =>
      .bind (.define _ _) fun _ => .pure _)

theorem succ_executeAll (h : Closed P) (ih : AllHave P bound) (body : List Stmt) :
    P Completion (Lox.executeAll (bound + 1) body) := by
  cases body with
  | nil => exact h.plain (.pure _)
  | cons s rest =>
    rw [Lox.executeAll]
    refine h.bind (ih.execute s) fun completion => ?_
    cases completion with
    | returned value => exact h.plain (.pure _)
    | normal => exact ih.executeAll rest

theorem succ_repeatWhile (h : Closed P) (ih : AllHave P bound) (condition : Expr) (body : Stmt) :
    P Completion (Lox.repeatWhile (bound + 1) condition body) := by
  rw [Lox.repeatWhile]
  refine h.bind (ih.evaluate condition) fun value => ?_
  split
  · refine h.bind (ih.execute body) fun completion => ?_
    cases completion with
    | returned value => exact h.plain (.pure _)
    | normal => exact ih.repeatWhile condition body
  · exact h.plain (.pure _)

/-- Evaluation has every closed property, whatever its bound. -/
theorem allHave (h : Closed P) (bound : Nat) : AllHave P bound := by
  induction bound with
  | zero =>
    constructor
    all_goals
      intros
      exact h.exhaust
  | succ bound ih =>
    exact ⟨h.succ_evaluate ih, h.succ_evaluateAll ih, h.succ_apply ih, h.succ_enter ih,
      h.succ_execute ih, h.succ_executeAll ih, h.succ_repeatWhile ih⟩

theorem runProgram (h : Closed P) (bound : Nat) (statements : List Stmt) :
    P Unit (runProgram bound statements) := by
  induction statements with
  | nil => exact h.plain (.pure _)
  | cons s rest ih => exact h.bind ((h.allHave bound).execute s) fun _ => ih

end Closed

end Run

end Lox
