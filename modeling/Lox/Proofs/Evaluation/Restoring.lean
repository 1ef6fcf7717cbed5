import Lox.Proofs.Evaluation.Leads

/-!
# What every run restores

However a piece of a run ends, it leaves the environment and the number of calls under way as they
were. Nothing is assumed of the machine or of the program. The steps that change one of the two,
`Run.inEnvironment` and `Run.asCall`, change it back after the part of the run inside them.
-/

namespace Lox

open Procedure

/-- After a part of a run the machine is in the same environment, with as many calls under way, and with
the same settings and recorded depths. -/
structure Machine.Restored (m after : Machine) : Prop where
  environment : after.environment = m.environment
  callDepth : after.callDepth = m.callDepth
  maxCallDepth : after.maxCallDepth = m.maxCallDepth
  depths : after.depths = m.depths
  hostFunctions : after.hostFunctions = m.hostFunctions

namespace Machine.Restored

variable {m after later : Machine}

theorem refl (m : Machine) : m.Restored m := ⟨rfl, rfl, rfl, rfl, rfl⟩

theorem trans (h : m.Restored after) (k : after.Restored later) : m.Restored later where
  environment := k.environment.trans h.environment
  callDepth := k.callDepth.trans h.callDepth
  maxCallDepth := k.maxCallDepth.trans h.maxCallDepth
  depths := k.depths.trans h.depths
  hostFunctions := k.hostFunctions.trans h.hostFunctions

end Machine.Restored

instance : Machine.Additive Machine.Restored where
  refl := .refl
  trans := .trans
  printed _ _ := ⟨rfl, rfl, rfl, rfl, rfl⟩
  numbered _ _ := ⟨rfl, rfl, rfl, rfl, rfl⟩
  instantiated _ := ⟨rfl, rfl, rfl, rfl, rfl⟩
  opened _ _ _ := ⟨rfl, rfl, rfl, rfl, rfl⟩

/-- From whatever machine and however the run of `x` ends, everything is restored. -/
def Run.Restores {α : Type} (x : Run α) : Prop := ∀ m, Leads Machine.Restored m x

/-! ### Steps -/

namespace Run

variable {α : Type} {m : Machine} {x : Run α}

theorem inEnvironment_restores (env : Environment) (hx : Restores x) :
    Leads Machine.Restored m (inEnvironment env x) := by
  intro later hlater
  rw [inEnvironment_apply, afterwards] at hlater
  cases ho : x { m with environment := env } with
  | exhausted =>
    rw [ho] at hlater
    cases hlater
  | error e after | ok a after =>
    rw [ho] at hlater
    cases hlater
    have h := hx _ after (congrArg Outcome.state? ho)
    exact { h with environment := rfl }

theorem asCall_restores (line : Nat) (hx : Restores x) :
    Leads Machine.Restored m (asCall line x) := by
  intro later hlater
  rw [asCall_apply] at hlater
  split at hlater
  · cases hlater
    exact .refl m
  · rw [afterwards] at hlater
    cases ho : x { m with callDepth := m.callDepth + 1 } with
    | exhausted =>
      rw [ho] at hlater
      cases hlater
    | error e after | ok a after =>
      rw [ho] at hlater
      cases hlater
      have h := hx _ after (congrArg Outcome.state? ho)
      exact { h with callDepth := congrArg (· - 1) h.callDepth }

theorem newScope_restores (env : Environment) (bindings : Table Value) :
    Leads Machine.Restored m (newScope env bindings) :=
  .bind (.read _) fun inner _ _ => .bind (.update ⟨rfl, rfl, rfl, rfl, rfl⟩) fun _ _ _ => .pure inner

theorem define_restores (name : String) (value : Value) :
    Leads Machine.Restored m (define name value) :=
  .update ⟨rfl, rfl, rfl, rfl, rfl⟩

theorem assign_restores (target : Reference) (value : Value) :
    Leads Machine.Restored m (assign target value) := by
  refine .bind (.read _) fun scope after _ => ?_
  cases scope with
  | none => exact .raise _ _
  | some scope => exact .update ⟨rfl, rfl, rfl, rfl, rfl⟩

theorem setField_restores (object : Instance) (name : String) (value : Value) :
    Leads Machine.Restored m (setField object name value) :=
  .update ⟨rfl, rfl, rfl, rfl, rfl⟩

end Run

/-! ### Evaluation -/

open Run

/-- What restores everything with the bound `bound`. -/
structure RunsRestore (bound : Nat) : Prop where
  evaluate : ∀ e : Expr, Restores (e.evaluate bound)
  evaluateAll : ∀ es, Restores (evaluateAll bound es)
  apply : ∀ (callee : Value) arguments line, Restores (callee.apply bound arguments line)
  enter : ∀ (f : Function) arguments line, Restores (f.enter bound arguments line)
  execute : ∀ s : Stmt, Restores (s.execute bound)
  executeAll : ∀ body, Restores (executeAll bound body)
  repeatWhile : ∀ condition body, Restores (repeatWhile bound condition body)

namespace RunsRestore

variable {bound : Nat}

theorem succ_evaluate (ih : RunsRestore bound) (e : Expr) : Restores (e.evaluate (bound + 1)) := by
  intro m
  cases e with
  | literal value => exact .pure _
  | grouping inner => exact ih.evaluate inner m
  | unary operator operand line =>
    exact .bind (ih.evaluate operand m) fun _ _ _ => .located _ _
  | binary left operator right line =>
    exact .bind (ih.evaluate left m) fun _ after _ =>
      .bind (ih.evaluate right after) fun _ _ _ => .located _ _
  | logical left operator right =>
    rw [Expr.evaluate]
    refine .bind (ih.evaluate left m) fun value after _ => ?_
    split
    · exact .pure value
    · exact ih.evaluate right after
  | reference target => exact .valueOf _ _ _
  | assign target value =>
    exact .bind (ih.evaluate value m) fun _ _ _ => .bind (assign_restores _ _) fun _ _ _ => .pure _
  | call callee arguments line =>
    rw [Expr.evaluate]
    refine .bind (ih.evaluate callee m) fun callee after _ => ?_
    refine .bind (ih.evaluateAll arguments after) fun arguments later _ => ?_
    split
    · exact .raise _ _
    · split
      · exact asCall_restores _ (ih.apply _ _ _)
      · exact .raise _ _
  | get object name =>
    rw [Expr.evaluate]
    refine .bind (ih.evaluate object m) fun value after _ => ?_
    split
    · exact .property _ _
    · exact .raise _ _
  | set object name value =>
    rw [Expr.evaluate]
    refine .bind (ih.evaluate object m) fun found after _ => ?_
    split
    · exact .bind (ih.evaluate value after) fun _ _ _ =>
        .bind (setField_restores _ _ _) fun _ _ _ => .pure _
    · exact .raise _ _
  | this id line => exact .valueOf _ _ _
  | super id line method => exact .superMethod _ _ _

theorem succ_evaluateAll (ih : RunsRestore bound) (es : List Expr) :
    Restores (Lox.evaluateAll (bound + 1) es) := by
  intro m
  cases es with
  | nil => exact .pure _
  | cons e rest =>
    exact .bind (ih.evaluate e m) fun _ after _ =>
      .bind (ih.evaluateAll rest after) fun _ _ _ => .pure _

theorem succ_apply (ih : RunsRestore bound) (callee : Value) (arguments : List Value) (line : Nat) :
    Restores (callee.apply (bound + 1) arguments line) := by
  intro m
  cases callee with
  | native f => exact .callHost _ _ _
  | function f => exact ih.enter _ _ _ m
  | ofClass c =>
    rw [Value.apply]
    refine .bind (.instantiate c) fun object after _ => ?_
    split
    · exact .bind (.bindMethod _ _) fun _ later _ =>
        .bind (ih.enter _ _ _ later) fun _ _ _ => .pure _
    · exact .pure _
  | _ => exact .raise _ _

theorem callBody (ih : RunsRestore bound) (f : Function) (arguments : List Value) :
    Restores (Run.callBody bound f arguments) := fun _ =>
  .bind (newScope_restores _ _) fun frame _ _ => inEnvironment_restores frame (ih.executeAll _)

theorem succ_enter (ih : RunsRestore bound) (f : Function) (arguments : List Value) (line : Nat) :
    Restores (f.enter (bound + 1) arguments line) := by
  intro m
  rw [Function.enter_succ]
  exact .bind (ih.callBody f arguments m) fun _ _ _ => .callResult _ _ _

theorem initialValue (ih : RunsRestore bound) (value : Option Expr) :
    Restores (initialValue bound value) := by
  intro m
  cases value with
  | none => exact .pure _
  | some e => exact ih.evaluate e m

theorem succ_execute (ih : RunsRestore bound) (s : Stmt) : Restores (s.execute (bound + 1)) := by
  intro m
  cases s with
  | expression value => exact .bind (ih.evaluate value m) fun _ _ _ => .pure _
  | print value =>
    exact .bind (ih.evaluate value m) fun _ _ _ => .bind (.write _ _) fun _ _ _ =>
      .bind (.write _ _) fun _ _ _ => .pure _
  | var name initial =>
    rw [Stmt.execute_var]
    exact .bind (ih.initialValue initial m) fun _ _ _ =>
      .bind (define_restores _ _) fun _ _ _ => .pure _
  | block body =>
    exact .bind (.read _) fun env _ _ => .bind (.newScope env Table.apart_empty) fun scope _ _ =>
      inEnvironment_restores scope (ih.executeAll body)
  | conditional condition thenBranch elseBranch =>
    rw [Stmt.execute_conditional]
    refine .bind (ih.evaluate condition m) fun value after _ => ?_
    split
    · exact ih.execute thenBranch after
    · split
      · exact ih.execute _ after
      · exact .pure _
  | whileLoop condition body => exact ih.repeatWhile condition body m
  | function declaration =>
    exact .bind (.read _) fun _ _ _ => .bind (.freshIdentity 1) fun _ _ _ =>
      .bind (define_restores _ _) fun _ _ _ => .pure _
  | ret line value =>
    rw [Stmt.execute_ret]
    exact .bind (ih.initialValue value m) fun _ _ _ => .pure _
  | classDef name superclass methods =>
    rw [Stmt.execute_classDef]
    exact .bind (.superclass? superclass) fun c _ _ => .bind (define_restores _ _) fun _ _ _ =>
      .bind (.methodClosure c) fun _ _ _ => .bind (.freshIdentity _) fun _ _ _ =>
      .bind (define_restores _ _) fun _ _ _ => .pure _

theorem succ_executeAll (ih : RunsRestore bound) (body : List Stmt) :
    Restores (Lox.executeAll (bound + 1) body) := by
  intro m
  cases body with
  | nil => exact .pure _
  | cons s rest =>
    rw [Lox.executeAll]
    refine .bind (ih.execute s m) fun completion after _ => ?_
    cases completion with
    | returned value => exact .pure _
    | normal => exact ih.executeAll rest after

theorem succ_repeatWhile (ih : RunsRestore bound) (condition : Expr) (body : Stmt) :
    Restores (Lox.repeatWhile (bound + 1) condition body) := by
  intro m
  rw [Lox.repeatWhile]
  refine .bind (ih.evaluate condition m) fun value after _ => ?_
  split
  · refine .bind (ih.execute body after) fun completion later _ => ?_
    cases completion with
    | returned value => exact .pure _
    | normal => exact ih.repeatWhile condition body later
  · exact .pure _

theorem succ (ih : RunsRestore bound) : RunsRestore (bound + 1) where
  evaluate := ih.succ_evaluate
  evaluateAll := ih.succ_evaluateAll
  apply := ih.succ_apply
  enter := ih.succ_enter
  execute := ih.succ_execute
  executeAll := ih.succ_executeAll
  repeatWhile := ih.succ_repeatWhile

theorem zero : RunsRestore 0 where
  evaluate _ _ := .exhaust
  evaluateAll _ _ := .exhaust
  apply _ _ _ _ := .exhaust
  enter _ _ _ _ := .exhaust
  execute _ _ := .exhaust
  executeAll _ _ := .exhaust
  repeatWhile _ _ _ := .exhaust

end RunsRestore

theorem runsRestore (bound : Nat) : RunsRestore bound := by
  induction bound with
  | zero => exact .zero
  | succ bound ih => exact ih.succ

theorem restores_runProgram (bound : Nat) (statements : List Stmt) :
    Restores (runProgram bound statements) := by
  induction statements with
  | nil => exact fun _ => .pure _
  | cons s rest ih => exact fun m => .bind ((runsRestore bound).execute s m) fun _ after _ => ih after

end Lox
