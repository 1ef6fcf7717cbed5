import Lox.Proofs.Evaluation.CallDepth
import Lox.Proofs.Evaluation.Origins

/-!
# Calls that are turned down

A stack overflow is raised by a call of a value with as many arguments as it takes, when as many calls
are under way as the limit allows. Such a call evaluates its callee and its arguments and nothing else.

## Implementation notes

The calls under way are counted twice: by the machine, and as the tasks that are around the call.
-/

namespace Lox

open Procedure Run

namespace Configuration

variable {c d : Configuration} {calls line : Nat} {m : Machine}

/-- The second task is the first one or inside it, with so many calls in between. -/
inductive Encloses : Configuration → Nat → Configuration → Prop where
  | refl (c : Configuration) : Encloses c 0 c
  | head {c d e : Configuration} {calls : Nat} (hstart : c.Starts d) (h : Encloses d calls e) :
      Encloses c (calls + d.task.calls) e

theorem exists_encloses_of_reaches (h : c.Reaches d) : ∃ calls, c.Encloses calls d := by
  induction h using Relation.ReflTransGen.head_induction_on with
  | refl => exact ⟨0, .refl d⟩
  | head hstart _ ih =>
    obtain ⟨calls, hcalls⟩ := ih
    exact ⟨_, .head hstart hcalls⟩

/-- The machine counts the calls around a task. -/
theorem Encloses.counts (h : c.Encloses calls d) : Counts c.machine d.machine calls := by
  induction h with
  | refl c => exact .refl c.machine
  | head hstart _ ih => exact hstart.counts.trans ih

/-- The task is a call of a value with as many arguments as it takes, and `m` is the machine when they
have been evaluated. -/
def Attempts (c : Configuration) (line : Nat) (m : Machine) : Prop :=
  ∃ n start callee arguments f after values,
    c = ⟨n + 1, start, .expression (.call callee arguments line)⟩ ∧
      callee.evaluate n start = .ok f after ∧ evaluateAll n arguments after = .ok values m ∧
      f.arity? = some values.length

namespace Attempts

/-- The operands of a call leave the number of calls as it is. -/
theorem counts (h : c.Attempts line m) : Counts c.machine m 0 := by
  obtain ⟨n, start, callee, arguments, f, after, values, rfl, hcallee, harguments, -⟩ := h
  have hfirst := Counts.after ((runsRestore n).evaluate callee _) hcallee
  exact hfirst.trans (Counts.after ((runsRestore n).evaluateAll arguments _) harguments)

/-- Where the limit is reached a call fails, leaves the machine as it is when its operands have been
evaluated, and does not start its callee. -/
theorem turned_down (h : c.Attempts line m) (hfull : m.maxCallDepth ≤ m.callDepth) :
    c.failure? = some ⟨.stackOverflow, line⟩ ∧ c.after? = some m ∧
      ∀ d, c.Starts d → d.task.calls = 0 := by
  obtain ⟨n, start, callee, arguments, f, after, values, rfl, hcallee, harguments, harity⟩ := h
  have hfails : (Expr.call callee arguments line).evaluate (n + 1) start =
      .error ⟨.stackOverflow, line⟩ m := by
    rw [Expr.evaluate, bind_apply_of_ok hcallee, bind_apply_of_ok harguments]
    simp only [harity, if_true]
    rw [asCall_apply, if_pos hfull]
  refine ⟨congrArg Outcome.failure? hfails, congrArg Outcome.state? hfails, fun d hstart => ?_⟩
  cases hstart with
  | callee => rfl
  | arguments _ => rfl
  | call hcallee' harguments' _ hroom =>
    obtain ⟨rfl, rfl⟩ := Outcome.ok.inj (hcallee.symm.trans hcallee')
    obtain ⟨-, rfl⟩ := Outcome.ok.inj (harguments.symm.trans harguments')
    exact absurd hroom (Nat.not_lt.2 hfull)

end Attempts

/-- Nothing but a call where the limit is reached raises a stack overflow. -/
theorem Raises.attempts_of_stackOverflow (h : c.Raises ⟨.stackOverflow, line⟩) :
    ∃ m, c.Attempts line m ∧ m.maxCallDepth ≤ m.callDepth := by
  cases h with
  | tooDeep hcallee harguments harity hfull =>
    exact ⟨_, ⟨_, _, _, _, _, _, _, rfl, hcallee, harguments, harity⟩, hfull⟩
  | unary _ h =>
    obtain ⟨type, htype⟩ := UnaryOperator.exists_wrongType h
    cases htype
  | binary _ _ h =>
    obtain ⟨type, htype⟩ := BinaryOperator.exists_wrongType h
    cases htype
  | super h =>
    rcases failure?_superMethod h with h | ⟨-, h⟩
    · cases h
    · simp at h

/-- A stack overflow in a program that no call is around comes from a call that as many calls are around
as the limit allows. -/
theorem Encloses.calls_eq_maxCallDepth (h : c.Encloses calls d) (hattempts : d.Attempts line m)
    (hfull : m.maxCallDepth ≤ m.callDepth) (hstart : c.machine.callDepth = 0) :
    calls = c.machine.maxCallDepth ∧ m.callDepth = c.machine.maxCallDepth := by
  have hcounts := h.counts.trans hattempts.counts
  have hcalls : m.callDepth = calls := by
    rw [hcounts.callDepth, hstart, Nat.zero_add, Nat.zero_add]
  have hwithin := hcounts.le (hstart ▸ Nat.zero_le _)
  have hmax : m.callDepth = c.machine.maxCallDepth := by
    rw [← hcounts.maxCallDepth]
    exact Nat.le_antisymm hwithin hfull
  exact ⟨hcalls.symm.trans hmax, hmax⟩

end Configuration

end Lox
