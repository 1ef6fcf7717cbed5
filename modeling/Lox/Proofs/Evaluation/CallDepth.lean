import Lox.Proofs.Evaluation.Between

/-!
# The number of calls under way

At every moment of a run the machine counts the calls that have been entered and have not come back.

## Implementation notes

The moments of a task are those at which it or a task inside it starts or ends. A call is under way as
long as its `Task.application` is: the operands of a call expression are evaluated before it.
-/

namespace Lox

open Run

namespace Configuration

/-- A machine at a moment of the task, with the number of calls inside the task that have been entered
and have not come back. -/
inductive Passes : Configuration → Nat → Machine → Prop where
  | start (c : Configuration) : Passes c 0 c.machine
  | finish {c : Configuration} {m : Machine} (h : c.after? = some m) : Passes c 0 m
  | inside {c d : Configuration} {calls : Nat} {m : Machine} (hstart : c.Starts d)
      (h : Passes d calls m) : Passes c (calls + d.task.calls) m

variable {c d : Configuration} {calls : Nat} {m : Machine}

/-- The counters of a machine with some more calls under way. -/
structure Counts (m later : Machine) (calls : Nat) : Prop where
  callDepth : later.callDepth = m.callDepth + calls
  maxCallDepth : later.maxCallDepth = m.maxCallDepth
  le : m.callDepth ≤ m.maxCallDepth → later.callDepth ≤ later.maxCallDepth

namespace Counts

variable {later last : Machine} {more : Nat}

theorem refl (m : Machine) : Counts m m 0 := ⟨rfl, rfl, id⟩

theorem of_restored (h : m.Restored later) : Counts m later 0 :=
  ⟨h.callDepth, h.maxCallDepth, fun hle => h.callDepth ▸ h.maxCallDepth ▸ hle⟩

theorem trans (h : Counts m later calls) (k : Counts later last more) :
    Counts m last (more + calls) where
  callDepth := by rw [k.callDepth, h.callDepth, Nat.add_assoc, Nat.add_comm more]
  maxCallDepth := k.maxCallDepth.trans h.maxCallDepth
  le hle := k.le (h.le hle)

/-- One task after another. -/
theorem after {α : Type} {x : Run α} {a : α} (hx : Leads Machine.Restored m x)
    (h : x m = .ok a later) : Counts m later 0 := .of_restored (hx.of_ok h)

end Counts

/-- A task that is started finds as many calls under way, or one more if it is a call. -/
theorem Starts.counts (h : c.Starts d) : Counts c.machine d.machine d.task.calls := by
  obtain ⟨between, hrestored, henters⟩ := h.between fun e _ => endsIn_restored e
  have hbetween := Counts.of_restored hrestored
  cases henters with
  | here hcalls =>
    rw [hcalls]
    exact hbetween
  | call hdepth => exact ⟨congrArg (· + 1) hbetween.callDepth, hbetween.maxCallDepth, fun _ => hdepth⟩
  | block | entry => exact ⟨rfl, rfl, id⟩

/-- At every moment of a task the machine counts the calls under way. -/
theorem Passes.counts (h : c.Passes calls m) : Counts c.machine m calls := by
  induction h with
  | start c => exact .refl _
  | finish h => exact .of_restored (endsIn_restored _ _ h)
  | inside hstart _ ih => exact hstart.counts.trans ih

end Configuration

end Lox
