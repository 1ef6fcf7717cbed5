import Lox.Proofs.Evaluation.Abiding
import Lox.Proofs.Evaluation.Children
import Lox.Proofs.Evaluation.Moves

/-!
# Events of a run

The tasks of a run begin and end one after another. `Configuration.trace` is the list of these events
in their order. From one event to the next the machine grows, and the fields of instances change at
the end of a `set` expression and nowhere else.

## Implementation notes

A run that its bound cuts short has events, too: some of its tasks begin and do not end.
-/

namespace Lox

open Procedure Run

/-! ### Writing a field -/

/-- A value put into a field of an instance, which is given by its number. -/
structure FieldWrite where
  object : Nat
  name : String
  value : Value

/-- The machine with one more field written. -/
def Machine.written (m : Machine) (w : FieldWrite) : Machine :=
  { m with fields := m.fields.put w.object w.name w.value }

/-- The field that a task writes by itself at its end. -/
def Configuration.write? : Configuration → Option FieldWrite
  | ⟨n + 1, m, .expression (.set object name value)⟩ =>
    match object.evaluate n m with
    | .ok (.ofInstance found) after =>
      match value.evaluate n after with
      | .ok result _ => some ⟨found.id, name.text, result⟩
      | _ => none
    | _ => none
  | _ => none

/-- Only a `set` expression writes a field, when its operands have been evaluated. -/
theorem Configuration.exists_of_write? {c : Configuration} {w : FieldWrite}
    (h : c.write? = some w) :
    ∃ n m object name value found after result last,
      c = ⟨n + 1, m, .expression (.set object name value)⟩ ∧
      object.evaluate n m = .ok (.ofInstance found) after ∧
      value.evaluate n after = .ok result last ∧ w = ⟨found.id, name.text, result⟩ := by
  unfold write? at h
  split at h
  · next n m object name value =>
    split at h
    · next found after hobject =>
      split at h
      · next result last hvalue =>
        cases h
        exact ⟨n, m, object, name, value, found, after, result, last, rfl, hobject, hvalue, rfl⟩
      · cases h
    · cases h
  · cases h

/-! ### Events -/

/-- A task begins, or it ends and leaves a machine behind. -/
inductive Event where
  | begins (c : Configuration)
  | ends (c : Configuration) (after : Machine)

namespace Event

/-- The machine at an event. -/
def machine : Event → Machine
  | begins c => c.machine
  | ends _ after => after

/-- The field that has been written when the event takes place, and had not been written before it. -/
def write? : Event → Option FieldWrite
  | begins _ => none
  | ends c _ => c.write?

/-- The event may be the next one when the machine was `m` at the one before. -/
def Follows (m : Machine) (e : Event) : Prop :=
  match e.write? with
  | none => m.Moves e.machine
  | some w => e.machine = m.written w

/-- Each of the events follows the one before, and the first of them the machine `m`. -/
def Path : Machine → List Event → Prop
  | _, [] => True
  | m, e :: rest => e.Follows m ∧ Path e.machine rest

/-- The machine at the last of the events, or `m` if there are none. -/
def last (m : Machine) (events : List Event) : Machine := events.foldl (fun _ e => e.machine) m

variable {m : Machine} {e : Event} {events more : List Event}

theorem last_append : last m (events ++ more) = last (last m events) more := List.foldl_append

theorem Follows.of_moves (h : m.Moves e.machine) (hw : e.write? = none) : e.Follows m := by
  unfold Follows
  rw [hw]
  exact h

theorem Follows.grows (h : e.Follows m) : m.Grows e.machine := by
  unfold Follows at h
  split at h
  · exact h.grows
  · rw [h]
    exact ⟨.refl _, Nat.le_of_eq (Store.size_put ..).symm, Nat.le_refl _, fun _ _ h => h⟩

namespace Path

theorem append_iff : Path m (events ++ more) ↔ Path m events ∧ Path (last m events) more := by
  induction events generalizing m with
  | nil => simp [Path, last]
  | cons e rest ih =>
    simp only [List.cons_append, Path, ih, and_assoc]
    rfl

/-- Machines grow along the events. -/
theorem grows (h : Path m events) (he : e ∈ events) : m.Grows e.machine := by
  induction events generalizing m with
  | nil => cases he
  | cons first rest ih =>
    rcases List.mem_cons.1 he with rfl | he
    · exact h.1.grows
    · exact h.1.grows.trans (ih h.2 he)

/-- From an event on to any later one. -/
theorem pairwise (h : Path m events) :
    events.Pairwise fun e later => e.machine.Grows later.machine := by
  induction events generalizing m with
  | nil => exact .nil
  | cons first rest ih => exact .cons (fun _ he => h.2.grows he) (ih h.2)

end Path

end Event

/-! ### The events of a task -/

namespace Configuration

/-- A task is higher than those that it starts at its own bound. -/
def height (c : Configuration) : Nat :=
  match c.task with
  | .program statements => statements.length + 2
  | .statement _ => 1
  | _ => 0

theorem Starts.lex {c d : Configuration} (h : c.Starts d) :
    Prod.Lex (· < ·) (· < ·) (d.bound, d.height) (c.bound, c.height) := by
  cases h with
  | superclass => exact .right _ Nat.one_pos
  | firstOfProgram => exact .right _ (Nat.succ_lt_succ (Nat.succ_pos _))
  | restOfProgram => exact .right _ (Nat.lt_succ_self _)
  | _ => exact .left _ _ (Nat.lt_succ_self _)

/-- The events of a task in order: it begins, the tasks that it starts take place one after another,
and it ends, unless its bound is too small. -/
def trace (c : Configuration) : List Event :=
  .begins c :: (c.children.attach.flatMap fun d => d.1.trace) ++ (c.after?.map (.ends c)).toList
termination_by (c.bound, c.height)
decreasing_by exact (starts_of_mem_children d.2).lex

variable {c d : Configuration} {m : Machine} {rest : List Configuration}

theorem trace_eq (c : Configuration) :
    c.trace = .begins c :: c.children.flatMap trace ++ (c.after?.map (.ends c)).toList := by
  rw [trace, List.flatMap_subtype (g := trace) fun _ _ => rfl, List.unattach_attach]

/-- Induction along the tasks that a task starts. -/
theorem induction {P : Configuration → Prop} (h : ∀ c, (∀ d, c.Starts d → P d) → P c)
    (c : Configuration) : P c :=
  h c fun d _ => induction h d
termination_by (c.bound, c.height)
decreasing_by exact Starts.lex ‹_›

/-- The events that are of the task itself. -/
def ownEvents (c : Configuration) : List Event :=
  .begins c :: (c.after?.map (.ends c)).toList

theorem begins_mem_ownEvents : .begins d ∈ c.ownEvents ↔ d = c := by
  cases h : c.after? <;> simp [ownEvents, h]

theorem ends_mem_ownEvents : .ends d m ∈ c.ownEvents ↔ d = c ∧ c.after? = some m := by
  cases h : c.after? with
  | none => simp [ownEvents, h]
  | some after => simp [ownEvents, h, eq_comm]

/-- The events of a run are those of the tasks that it reaches. -/
theorem mem_trace_iff {e : Event} : e ∈ c.trace ↔ ∃ d, c.Reaches d ∧ e ∈ d.ownEvents := by
  constructor
  · intro h
    induction c using induction with
    | h c ih =>
      rw [trace_eq, List.cons_append, List.mem_cons, List.mem_append] at h
      rcases h with h | h | h
      · exact ⟨c, .refl, List.mem_cons.2 (.inl h)⟩
      · obtain ⟨d, hd, he⟩ := List.mem_flatMap.1 h
        have hstarts := starts_of_mem_children hd
        obtain ⟨d', hreaches, he⟩ := ih d hstarts he
        exact ⟨d', .head hstarts hreaches, he⟩
      · exact ⟨c, .refl, .tail _ h⟩
  · rintro ⟨d, h, he⟩
    induction h using Relation.ReflTransGen.head_induction_on with
    | refl =>
      rw [trace_eq, List.cons_append]
      rcases List.mem_cons.1 he with rfl | he
      · exact .head _
      · exact .tail _ (List.mem_append_right _ he)
    | @head c d' hstarts _ ih =>
      rw [trace_eq, List.cons_append]
      exact .tail _ (List.mem_append_left _ (List.mem_flatMap.2 ⟨d', hstarts.mem_children, ih⟩))

theorem begins_mem_trace_iff : .begins d ∈ c.trace ↔ c.Reaches d := by
  simp [mem_trace_iff, begins_mem_ownEvents]

theorem ends_mem_trace_iff :
    .ends d m ∈ c.trace ↔ c.Reaches d ∧ d.after? = some m := by
  simp [mem_trace_iff, ends_mem_ownEvents]

end Configuration

end Lox
