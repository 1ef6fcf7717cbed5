import Lox.Proofs.Evaluation.Growth
import Lox.Proofs.Evaluation.Leads

/-!
# Steps that leave all fields alone

Of the steps that evaluation is made of, only `Run.setField` writes a field of an instance.
-/

namespace Lox

open Procedure

/-- The second machine comes after the first one, with no field written in between. New instances have
no fields. -/
structure Machine.Moves (m after : Machine) : Prop where
  grows : m.Grows after
  get? : ∀ object name, after.fields.get? object name = m.fields.get? object name

namespace Machine.Moves

variable {m after later : Machine}

theorem refl (m : Machine) : m.Moves m := ⟨.refl m, fun _ _ => rfl⟩

theorem trans (h : m.Moves after) (k : after.Moves later) : m.Moves later :=
  ⟨h.grows.trans k.grows, fun object name => (k.get? object name).trans (h.get? object name)⟩

theorem of_eq (hs : after.store = m.store) (hf : after.fields = m.fields)
    (hi : after.nextIdentity = m.nextIdentity) (hd : after.depths = m.depths) : m.Moves after :=
  ⟨.of_eq hs hf hi hd, fun _ _ => by rw [hf]⟩

theorem withStore {s : Store Value} (h : m.store.Steady s) : m.Moves { m with store := s } :=
  ⟨.withStore h, fun _ _ => rfl⟩

theorem instantiate (m : Machine) : m.Moves { m with fields := m.fields.push ∅ } := by
  refine ⟨.instantiate m, fun object name => ?_⟩
  rcases Nat.lt_trichotomy object m.fields.size with hlt | rfl | hgt
  · exact Store.get?_push_of_lt m.fields ∅ name hlt
  · have hnone : m.fields.get? m.fields.size name = none :=
      Option.eq_none_iff_forall_ne_some.2 fun v hv =>
        Nat.lt_irrefl _ (Store.Extends.get?_lt hv)
    rw [Store.get?_push_size, hnone]
    rfl
  · have hnone : ∀ s : Store Value, s.size ≤ object → s.get? object name = none :=
      fun s hs => Option.eq_none_iff_forall_ne_some.2 fun v hv =>
        Nat.not_lt.2 hs (Store.Extends.get?_lt hv)
    rw [hnone _ (by rw [Store.size_push]; exact hgt), hnone _ (Nat.le_of_lt hgt)]

end Machine.Moves

instance : Machine.Additive Machine.Moves where
  refl := .refl
  trans := .trans
  printed _ _ := .of_eq rfl rfl rfl rfl
  numbered m count := ⟨.freshIdentity m count, fun _ _ => rfl⟩
  instantiated := .instantiate
  opened m bindings _ := .withStore (.push m.store bindings)

namespace Run

variable {m : Machine} {name : String}

theorem define_moves (hname : OrdinaryName name) (value : Value) :
    Leads Machine.Moves m (define name value) :=
  .update (.withStore (.put m.store m.environment.scope value hname))

theorem assign_moves {target : Reference} (hname : OrdinaryName target.name.text) (value : Value) :
    Leads Machine.Moves m (assign target value) := by
  refine .bind (.read _) fun scope after _ => ?_
  cases scope with
  | none => exact .raise _ _
  | some scope => exact .update (.withStore (.put after.store scope value hname))

end Run

end Lox
