import Lox.Proofs.Evaluation.Reach

/-!
# Steps that only add

Most steps of evaluation leave alone what is there: they open a scope, make an instance, take an identity
or print. A relation that has room for these additions holds between the machine before such a step and
the one after it, and so it is only to be checked for the few steps that write.

## Main results

* `Machine.Additive`: the relations that have room for additions.
* `Run.Leads`: a run leads only to machines that are in a relation to the first one.
-/

namespace Lox

open Procedure

/-- A table of `this` and `super` alone, or of neither of them. -/
def Table.Apart {α : Type} (bindings : Table α) : Prop :=
  (∀ name, OrdinaryName name → bindings.get? name = none) ∨
    ∀ name, ¬ OrdinaryName name → bindings.get? name = none

namespace Table

variable {α : Type}

theorem apart_empty : (∅ : Table α).Apart := .inl fun _ _ => rfl

/-- The scope of `this` or `super` binds nothing else. -/
theorem apart_singleton {name : String} (hname : ¬ OrdinaryName name) (value : α) :
    (Table.ofList [(name, value)]).Apart := by
  left
  intro key hkey
  rw [get?_ofList_singleton, if_neg]
  rintro rfl
  exact hname hkey

end Table

/-- A relation between a machine and a later one that leaves room for additions: for scopes, instances and
identities, and for output. -/
class Machine.Additive (R : Machine → Machine → Prop) : Prop where
  refl : ∀ m, R m m
  trans : ∀ {m after later : Machine}, R m after → R after later → R m later
  printed : ∀ (m : Machine) (output : Output), R m { m with output }
  numbered : ∀ (m : Machine) (count : Nat), R m { m with nextIdentity := m.nextIdentity + count }
  instantiated : ∀ m : Machine, R m { m with fields := m.fields.push ∅ }
  opened : ∀ (m : Machine) {bindings : Table Value}, bindings.Apart →
    R m { m with store := m.store.push bindings }

/-- However the run of `x` from `m` ends, the machine after it is in the relation to `m`. -/
def Run.Leads {α : Type} (R : Machine → Machine → Prop) (m : Machine) (x : Run α) : Prop :=
  ∀ after, (x m).state? = some after → R m after

theorem Run.state?_afterwards {α : Type} (g : Machine → Machine) (x : Run α) (m : Machine) :
    (afterwards g x m).state? = (x m).state?.map g := by
  rw [afterwards]
  cases x m <;> rfl

namespace Run.Leads

variable {α β : Type} {R : Machine → Machine → Prop} [Machine.Additive R] {m : Machine} {x : Run α}
  {f : α → Run β}

omit [Machine.Additive R] in
theorem of_ok {a : α} {after : Machine} (h : Leads R m x) (ho : x m = .ok a after) : R m after :=
  h after (congrArg Outcome.state? ho)

omit [Machine.Additive R] in
theorem exhaust : Leads R m (Procedure.exhaust : Run α) := nofun

omit [Machine.Additive R] in
theorem update {g : Machine → Machine} (h : R m (g m)) : Leads R m (Procedure.update g) := by
  rintro _ ⟨⟩
  exact h

theorem pure (a : α) : Leads R m (Pure.pure a : Run α) := by
  rintro _ ⟨⟩
  exact Machine.Additive.refl m

theorem raise (fault : RuntimeFault) (line : Nat) : Leads R m (Run.raise fault line : Run α) := by
  rintro _ ⟨⟩
  exact Machine.Additive.refl m

theorem read (g : Machine → α) : Leads R m (Procedure.read g) := by
  rintro _ ⟨⟩
  exact Machine.Additive.refl m

/-- Two parts of a run in a row. -/
theorem bind (hx : Leads R m x) (hf : ∀ a after, x m = .ok a after → Leads R after (f a)) :
    Leads R m (x >>= f) := by
  intro last hlast
  rw [bind_apply] at hlast
  cases ho : x m with
  | exhausted =>
    rw [ho] at hlast
    cases hlast
  | error e after =>
    rw [ho] at hlast
    exact hx last (ho ▸ hlast)
  | ok a after =>
    rw [ho] at hlast
    exact Machine.Additive.trans (hx.of_ok ho) (hf a after ho last hlast)

theorem located (line : Nat) (result : Except RuntimeFault α) : Leads R m (located line result) := by
  cases result with
  | ok a => exact pure a
  | error fault => exact raise fault line

theorem valueOf (id : NodeId) (name : String) (line : Nat) : Leads R m (valueOf id name line) := by
  refine bind (read _) fun value after _ => ?_
  cases value with
  | none => exact raise _ _
  | some value => exact pure value

theorem newScope (env : Environment) {bindings : Table Value} (h : bindings.Apart) :
    Leads R m (newScope env bindings) :=
  bind (read _) fun inner _ _ => bind (update (Machine.Additive.opened _ h)) fun _ _ _ => pure inner

theorem freshIdentity (count : Nat) : Leads R m (freshIdentity count) :=
  bind (read _) fun id _ _ => bind (update (Machine.Additive.numbered _ count)) fun _ _ _ => pure id

theorem bindMethod (method : Function) (object : Instance) : Leads R m (Run.bind method object) :=
  bind (newScope _ (Table.apart_singleton not_ordinary_this _)) fun _ _ _ =>
    bind (freshIdentity 1) fun _ _ _ => pure _

theorem instantiate (c : Class) : Leads R m (instantiate c) :=
  bind (read _) fun _ _ _ => bind (update (Machine.Additive.instantiated _)) fun _ _ _ => pure _

/-- A method that was looked for, bound to an instance. -/
theorem boundMethod (found : Option Function) (object : Instance) (name : Identifier) :
    Leads R m (match found with
      | some method => do return .function (← Run.bind method object)
      | none => Run.raise (.undefinedProperty name.text) name.line : Run Value) := by
  cases found with
  | none => exact raise _ _
  | some method => exact bind (bindMethod method object) fun _ _ _ => pure _

theorem property (object : Instance) (name : Identifier) : Leads R m (property object name) := by
  refine bind (read _) fun field after _ => ?_
  cases field with
  | some value => exact pure value
  | none => exact boundMethod _ object name

theorem superMethod (id : NodeId) (line : Nat) (method : Identifier) :
    Leads R m (superMethod id line method) := by
  refine bind (read _) fun depth after _ => ?_
  cases depth with
  | none => exact raise _ _
  | some depth =>
    refine bind (read _) fun superclass later _ => ?_
    cases superclass with
    | none => exact raise _ _
    | some superclass =>
      refine bind (read _) fun object last _ => ?_
      cases object with
      | none => exact raise _ _
      | some object =>
        cases superclass with
        | ofClass c =>
          cases object with
          | ofInstance object => exact boundMethod _ object method
          | _ => exact raise _ _
        | _ => exact raise _ _

theorem write (text : String) (line : Nat) : Leads R m (write text line) := by
  intro after h
  unfold Run.write at h
  split at h <;>
  · cases h
    exact Machine.Additive.printed m _

theorem callHost (f : Native) (arguments : List Value) (line : Nat) :
    Leads R m (callHost f arguments line) := by
  refine bind (read _) fun host after _ => ?_
  cases host with
  | none => exact pure _
  | some host =>
    simp only
    cases host arguments with
    | ok value => exact pure value
    | error message => exact raise _ _

theorem superclass? (target : Option Reference) : Leads R m (superclass? target) := by
  cases target with
  | none => exact pure none
  | some target =>
    refine bind (valueOf _ _ _) fun value after _ => ?_
    cases value with
    | ofClass c => exact pure (some c)
    | _ => exact raise _ _

theorem methodClosure (superclass : Option Class) : Leads R m (methodClosure superclass) := by
  refine bind (read _) fun outside after _ => ?_
  cases superclass with
  | none => exact pure outside
  | some c => exact newScope outside (Table.apart_singleton not_ordinary_super _)

theorem callResult (f : Function) (line : Nat) (completion : Completion) :
    Leads R m (callResult f line completion) := by
  unfold Run.callResult
  split
  · refine bind (read _) fun object after _ => ?_
    cases object with
    | none => exact raise _ _
    | some object => exact pure object
  · cases completion <;> exact pure _

end Run.Leads

end Lox
