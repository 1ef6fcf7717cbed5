import Lox.Proofs.Evaluation.Declarations
import Lox.Proofs.Evaluation.Fields
import Lox.Proofs.Evaluation.RootedRuns

/-!
# The values at an event

A value is there at an event if it is in a variable or a field, if the task that begins is given it, or
if it comes of the task that ends. All values at the events of a run have roots.
-/

namespace Lox

open Procedure

def Completion.values : Completion → List Value
  | .normal => []
  | .returned value => [value]

/-- The values that a task ends with. -/
def Configuration.results : Configuration → List Value
  | ⟨n, m, .expression e⟩ => (e.evaluate n m).next fun value _ => [value]
  | ⟨n, m, .arguments es⟩ => (evaluateAll n es m).next fun values _ => values
  | ⟨n, m, .application callee arguments line⟩ =>
    (callee.apply n arguments line m).next fun value _ => [value]
  | ⟨n, m, .entry f arguments line⟩ => (f.enter n arguments line m).next fun value _ => [value]
  | ⟨n, m, .statement s⟩ => (s.execute n m).next fun completion _ => completion.values
  | ⟨n, m, .statements body⟩ => (executeAll n body m).next fun completion _ => completion.values
  | ⟨n, m, .loop condition body⟩ =>
    (repeatWhile n condition body m).next fun completion _ => completion.values
  | ⟨_, _, .program _⟩ => []

namespace Event

/-- The value is there at the event. -/
inductive Has : Event → Value → Prop where
  | stored {e scope name value} (h : (machine e).store.get? scope name = some value) : Has e value
  | field {e object name value} (h : (machine e).fields.get? object name = some value) : Has e value
  | given {c value} (h : value ∈ c.task.operands) : Has (begins c) value
  | result {c after value} (h : value ∈ c.results) : Has (ends c after) value

/-- All values at the event have roots. -/
structure Rooted (done : Configuration → Prop) (e : Event) : Prop where
  machine : e.machine.Rooted done
  values : ∀ value, e.Has value → value.Rooted done e.machine

end Event

variable {done : Configuration → Prop} {c : Configuration} {m after : Machine}

theorem Run.Roots.of_mem_next {α : Type} {x : Run α} {P : α → Machine → Prop} {f : α → List Value}
    {value : Value} (h : Roots done m x P) (hstate : (x m).state? = some after)
    (hv : value ∈ (x m).next fun a _ => f a) : ∃ a, P a after ∧ value ∈ f a := by
  obtain ⟨a, later, ho, hv⟩ := Outcome.mem_next.1 hv
  rw [ho] at hstate
  cases hstate
  exact ⟨a, (h.of_ok ho).2.2, hv⟩

theorem Completion.Rooted.values {completion : Completion} {value : Value}
    (h : completion.Rooted done m) (hv : value ∈ completion.values) : value.Rooted done m := by
  cases completion with
  | normal => cases hv
  | returned result =>
    obtain rfl := List.mem_singleton.1 hv
    exact h

/-- What a task ends with has roots. -/
theorem Configuration.Rooted.results (H : Begun done) (hc : c.Rooted done)
    (hafter : c.after? = some after) {value : Value} (hv : value ∈ c.results) :
    value.Rooted done after := by
  obtain ⟨n, m, task⟩ := c
  cases task with
  | expression e =>
    obtain ⟨a, ha, hv⟩ := ((rootsAt H n).evaluate e hc).of_mem_next hafter hv
    exact List.mem_singleton.1 hv ▸ ha
  | arguments es =>
    obtain ⟨values, hvalues, hv⟩ := ((rootsAt H n).evaluateAll es hc).of_mem_next (f := id) hafter hv
    exact hvalues value hv
  | application callee arguments line =>
    obtain ⟨a, ha, hv⟩ := ((rootsAt H n).apply callee arguments line hc).of_mem_next hafter hv
    exact List.mem_singleton.1 hv ▸ ha
  | entry f arguments line =>
    obtain ⟨a, ha, hv⟩ := ((rootsAt H n).enter f arguments line hc).of_mem_next hafter hv
    exact List.mem_singleton.1 hv ▸ ha
  | statement s =>
    obtain ⟨completion, hcompletion, hv⟩ := ((rootsAt H n).execute s hc).of_mem_next hafter hv
    exact hcompletion.values hv
  | statements body =>
    obtain ⟨completion, hcompletion, hv⟩ :=
      ((rootsAt H n).executeAll body hc).of_mem_next hafter hv
    exact hcompletion.values hv
  | loop condition body =>
    obtain ⟨completion, hcompletion, hv⟩ :=
      ((rootsAt H n).repeatWhile condition body hc).of_mem_next hafter hv
    exact hcompletion.values hv
  | program statements => cases hv

namespace Event

variable {e : Event}

/-- At the events of a task that has roots all values have roots. -/
theorem rooted_of_mem (H : Begun done) (hc : c.Rooted done) (he : e ∈ c.trace) : e.Rooted done := by
  obtain ⟨d, hreaches, he⟩ := Configuration.mem_trace_iff.1 he
  have hd := hc.reaches H hreaches
  rcases List.mem_cons.1 he with rfl | he
  · refine ⟨hd.machine, fun value hv => ?_⟩
    cases hv with
    | stored h => exact hd.machine.store _ _ value h
    | field h => exact hd.machine.fields _ _ value h
    | given h => exact hd.operands value h
  · obtain ⟨after, hafter, rfl⟩ := Option.mem_map.1 (Option.mem_toList.1 he)
    have hm : after.Rooted done := hd.after H hafter
    refine ⟨hm, fun value hv => ?_⟩
    cases hv with
    | stored h => exact hm.store _ _ value h
    | field h => exact hm.fields _ _ value h
    | result h => exact hd.results H hafter h

/-- What a task with roots writes is a field of an instance that there is. -/
theorem write?_inside (H : Begun done) (hc : c.Rooted done) {w : FieldWrite}
    (hw : c.write? = some w) (hafter : c.after? = some after) : w.object < after.fields.size := by
  obtain ⟨n, m, object, name, value, found, later, result, last, rfl, hobject, hvalue, rfl⟩ :=
    Configuration.exists_of_write? hw
  obtain ⟨-, -, hfound⟩ := (hc.starts H .setObject).of_evaluate H hobject
  obtain ⟨hg, -, -⟩ := (hc.starts H (.setValue hobject)).of_evaluate H hvalue
  have hset : (Expr.set object name value).evaluate (n + 1) m =
      .ok result (last.written ⟨found.id, name.text, result⟩) := by
    rw [Expr.evaluate, bind_apply_of_ok hobject]
    exact bind_apply_of_ok hvalue
  have hlast : after = last.written ⟨found.id, name.text, result⟩ := by
    have hstate : ((Expr.set object name value).evaluate (n + 1) m).state? = some after := hafter
    rw [hset] at hstate
    exact (Option.some.inj hstate).symm
  rw [hlast]
  show found.id < (last.fields.put found.id name.text result).size
  rw [Store.size_put]
  exact Nat.lt_of_lt_of_le (Instance.Rooted.id hfound) hg.fields

end Event

end Lox
