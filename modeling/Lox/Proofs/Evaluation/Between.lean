import Lox.Proofs.Evaluation.Restoring

/-!
# From a task to its parts

Before a task starts another one it has done others. Then it starts the new one on the machine that is
there, or as a call, or in a new scope. So the machine that the new task finds is known from what the
tasks before it lead to.
-/

namespace Lox

open Procedure Run

/-- How many calls a task is by itself. -/
def Task.calls : Task → Nat
  | .application _ _ _ => 1
  | _ => 0

namespace Configuration

/-- The machine that the task leaves behind if it ends. -/
def after? : Configuration → Option Machine
  | ⟨n, m, .expression e⟩ => (e.evaluate n m).state?
  | ⟨n, m, .arguments es⟩ => (evaluateAll n es m).state?
  | ⟨n, m, .application callee arguments line⟩ => (callee.apply n arguments line m).state?
  | ⟨n, m, .entry f arguments line⟩ => (f.enter n arguments line m).state?
  | ⟨n, m, .statement s⟩ => (s.execute n m).state?
  | ⟨n, m, .statements body⟩ => (executeAll n body m).state?
  | ⟨n, m, .loop condition body⟩ => (repeatWhile n condition body m).state?
  | ⟨n, m, .program statements⟩ => (runProgram n statements m).state?

/-- If the task ends, the machine after it is in the relation to the one before it. -/
def EndsIn (R : Machine → Machine → Prop) (c : Configuration) : Prop :=
  ∀ after, c.after? = some after → R c.machine after

/-- From the machine that is there when the tasks before it are done to the one that a task finds. -/
inductive Enters : Configuration → Machine → Configuration → Prop where
  | here {c : Configuration} {n : Nat} {m : Machine} {task : Task} (hcalls : task.calls = 0) :
      Enters c m ⟨n, m, task⟩
  | call {c : Configuration} {n : Nat} {m : Machine} {f : Value} {values : List Value} {line : Nat}
      (hdepth : m.callDepth < m.maxCallDepth) :
      Enters c m ⟨n, { m with callDepth := m.callDepth + 1 }, .application f values line⟩
  | block {n : Nat} {m : Machine} {body : List Stmt} :
      Enters ⟨n + 1, m, .statement (.block body)⟩ m ⟨n, { m with
        store := m.store.push ∅, environment := m.environment.inner m.store.size }, .statements body⟩
  | entry {n : Nat} {m : Machine} {f : Function} {arguments : List Value} {line : Nat} :
      Enters ⟨n + 1, m, .entry f arguments line⟩ m ⟨n, { m with
        store := m.store.push (.ofList (f.declaration.paramNames.zip arguments)),
        environment := f.closure.inner m.store.size }, .statements f.declaration.body⟩

variable {c d : Configuration}

/-- A task is entered from a machine that the tasks before it lead to. -/
theorem Starts.between {R : Machine → Machine → Prop} [Machine.Additive R] (h : c.Starts d)
    (hparts : ∀ e, c.Starts e → e.EndsIn R) : ∃ m, R c.machine m ∧ c.Enters m d := by
  have value : ∀ {n m e a after}, c.Starts ⟨n, m, .expression e⟩ → e.evaluate n m = .ok a after →
      R m after := fun hstart ho => hparts _ hstart _ (congrArg Outcome.state? ho)
  have completion : ∀ {n m s a after}, c.Starts ⟨n, m, .statement s⟩ → s.execute n m = .ok a after →
      R m after := fun hstart ho => hparts _ hstart _ (congrArg Outcome.state? ho)
  cases h with
  | right ho => exact ⟨_, value .left ho, .here rfl⟩
  | undecided ho _ => exact ⟨_, value .decider ho, .here rfl⟩
  | arguments ho => exact ⟨_, value .callee ho, .here rfl⟩
  | call hcallee harguments _ hdepth =>
    have hvalues := hparts _ (.arguments hcallee) _ (congrArg Outcome.state? harguments)
    exact ⟨_, Machine.Additive.trans (value .callee hcallee) hvalues, .call hdepth⟩
  | setValue ho => exact ⟨_, value .setObject ho, .here rfl⟩
  | otherArguments ho => exact ⟨_, value .firstArgument ho, .here rfl⟩
  | initializer hobject _ hbound =>
    exact ⟨_, Machine.Additive.trans ((Leads.instantiate _).of_ok hobject)
      ((Leads.bindMethod _ _).of_ok hbound), .here rfl⟩
  | functionBody hopened =>
    cases hopened
    exact ⟨_, Machine.Additive.refl _, .entry⟩
  | block hopened =>
    cases hopened
    exact ⟨_, Machine.Additive.refl _, .block⟩
  | thenBranch ho _ | elseBranch ho _ => exact ⟨_, value .condition ho, .here rfl⟩
  | otherStatements ho => exact ⟨_, completion .firstStatement ho, .here rfl⟩
  | loopBody ho _ => exact ⟨_, value .loopCondition ho, .here rfl⟩
  | nextRound hcondition ha hbody =>
    exact ⟨_, Machine.Additive.trans (value .loopCondition hcondition)
      (completion (.loopBody hcondition ha) hbody), .here rfl⟩
  | restOfProgram ho => exact ⟨_, completion .firstOfProgram ho, .here rfl⟩
  | _ => exact ⟨_, Machine.Additive.refl _, .here rfl⟩

theorem endsIn_restored (c : Configuration) : c.EndsIn Machine.Restored := by
  obtain ⟨n, m, task⟩ := c
  cases task with
  | expression e => exact (runsRestore n).evaluate e m
  | arguments es => exact (runsRestore n).evaluateAll es m
  | application callee arguments line => exact (runsRestore n).apply callee arguments line m
  | entry f arguments line => exact (runsRestore n).enter f arguments line m
  | statement s => exact (runsRestore n).execute s m
  | statements body => exact (runsRestore n).executeAll body m
  | loop condition body => exact (runsRestore n).repeatWhile condition body m
  | program statements => exact restores_runProgram n statements m

end Configuration

end Lox
