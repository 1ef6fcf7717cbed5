import Lox.Proofs.Evaluation.Events
import Mathlib.Data.List.Induction

/-!
# Fields and the writes to them

A field has the value of the last write to it. Writes to other instances or to other names make no
difference, and a write changes nothing else.
-/

namespace Lox

namespace Event

/-- The last value that was written to a field of an instance. -/
def lastWrite (object : Nat) (name : String) (events : List Event) : Option Value :=
  (((events.filterMap write?).filter fun w => w.object = object ∧ w.name = name).getLast?).map
    FieldWrite.value

/-- Every write is to an instance that there is. -/
def WritesInside (events : List Event) : Prop :=
  ∀ e ∈ events, ∀ w ∈ e.write?, w.object < e.machine.fields.size

variable {m : Machine} {e : Event} {events : List Event} {object : Nat} {name : String}

theorem lastWrite_concat_of_none (h : e.write? = none) :
    lastWrite object name (events ++ [e]) = lastWrite object name events := by
  simp [lastWrite, h]

theorem lastWrite_concat_of_some {w : FieldWrite} (h : e.write? = some w) :
    lastWrite object name (events ++ [e]) =
      if w.object = object ∧ w.name = name then some w.value else lastWrite object name events := by
  have hwrites : (events ++ [e]).filterMap write? = events.filterMap write? ++ [w] := by simp [h]
  rw [lastWrite, hwrites, List.filter_append]
  by_cases hw : w.object = object ∧ w.name = name
  · rw [if_pos hw, List.filter_cons_of_pos (by simpa using hw), List.filter_nil,
      List.getLast?_concat]
    rfl
  · rw [if_neg hw, List.filter_cons_of_neg (by simpa using hw), List.filter_nil, List.append_nil]
    rfl

/-- A write changes the one field. -/
theorem get?_written {w : FieldWrite} (h : w.object < m.fields.size) :
    (m.written w).fields.get? object name =
      if w.object = object ∧ w.name = name then some w.value else m.fields.get? object name := by
  show (m.fields.put w.object w.name w.value).get? object name = _
  rw [Store.get?_put m.fields object w.name name w.value h]
  simp only [eq_comm]

/-- At the end of a path the fields have what was written to them last. -/
theorem Path.get?_fields (h : Path m events) (hin : WritesInside events)
    (hm : m.fields.get? object name = none) :
    (last m events).fields.get? object name = lastWrite object name events := by
  induction events using List.reverseRecOn with
  | nil => exact hm
  | append_singleton events e ih =>
    obtain ⟨hpath, hfollows, -⟩ := Path.append_iff.1 h
    have hbefore := ih hpath fun e he => hin e (List.mem_append_left _ he)
    rw [last_append]
    show e.machine.fields.get? object name = _
    unfold Follows at hfollows
    cases hw : e.write? with
    | none =>
      rw [hw] at hfollows
      rw [lastWrite_concat_of_none hw, hfollows.get?, hbefore]
    | some w =>
      rw [hw] at hfollows
      have hlt := hin e (List.mem_append_right _ (.head _)) w hw
      rw [hfollows] at hlt ⊢
      have hlt' : w.object < (last m events).fields.size := (Store.size_put ..) ▸ hlt
      rw [lastWrite_concat_of_some hw, get?_written hlt', hbefore]

end Event

end Lox
