import Lox.Proofs.Evaluation.Dispatch
import Lox.Proofs.Session.Events
import Lox.Proofs.Session.Returns

/-!
# Construction

A call of a class makes an instance and gives it, whatever its initializer does. A function with the mark
of an initializer is always a method that has been bound, so it finds the instance that it has to give.

## Implementation notes

The mark is set in the table of a class, where functions are not bound yet. No run gets hold of a
function out of the table: reading a property, `super` and construction all bind it first.
-/

namespace Lox

open Procedure

/-! ### Arguments -/

/-- A call has as many arguments as it takes. -/
def Task.Fits : Task → Prop
  | application callee values _ => callee.arity? = some values.length
  | entry f values _ => f.arity = values.length
  | _ => True

/-- The arguments are counted where a call is evaluated; an initializer is given those of its class. -/
theorem Configuration.Starts.fits {c d : Configuration} (h : c.Starts d) (hc : c.task.Fits) :
    d.task.Fits := by
  cases h with
  | call _ _ harity _ => exact harity
  | function => exact Option.some.inj hc
  | @initializer n m c arguments line object after f bound later hobject hinit hbound =>
    cases hbound
    have harity : c.arity = arguments.length := Option.some.inj hc
    rw [Class.arity, hinit] at harity
    exact harity
  | _ => trivial

theorem Session.Lives.fits {allowed : HostFunction → Prop} {past : List Configuration} {s : Session}
    (h : Lives allowed past s) : ∀ program ∈ past, program.task.Fits := by
  induction h with
  | start => exact nofun
  | register _ _ _ _ ih => exact ih
  | run _ _ ih =>
    refine List.forall_mem_append.2 ⟨ih, fun program hp => ?_⟩
    obtain ⟨statements, u, -, rfl⟩ := prepared_of_program? (Option.mem_toList.1 hp)
    trivial

theorem Session.Course.fits {allowed : HostFunction → Prop} {programs : List Configuration}
    {c : Configuration} (h : Course allowed programs) (hc : Configuration.Begins programs c) :
    c.task.Fits := by
  obtain ⟨program, hmem, hreach⟩ := hc
  have hprogram : program.task.Fits := by
    obtain ⟨hs, hp⟩ := h
    rcases List.mem_append.1 hmem with hmem | hmem
    · exact hs.fits program hmem
    · obtain rfl := List.mem_singleton.1 hmem
      obtain ⟨statements, u, -, rfl⟩ := prepared_of_program? hp
      trivial
  induction hreach with
  | refl => exact hprogram
  | tail _ hstep ih => exact hstep.fits ih

/-! ### Instances and their initializers -/

section

variable {n line : Nat} {m last : Machine} {c : Class} {arguments : List Value} {result : Value}

/-- The class that a task makes an instance of. -/
def Configuration.constructed? : Configuration → Option Class
  | ⟨_ + 1, _, .application (.ofClass c) _ _⟩ => some c
  | _ => none

theorem Configuration.exists_of_constructed? {d : Configuration} (h : d.constructed? = some c) :
    ∃ n m arguments line, d = ⟨n + 1, m, .application (.ofClass c) arguments line⟩ := by
  unfold constructed? at h
  split at h
  · cases h
    exact ⟨_, _, _, _, rfl⟩
  · cases h

/-- Whatever the initializer does, a call of a class gives the instance that it has made. -/
theorem Value.apply_class
    (h : (Value.ofClass c).apply (n + 1) arguments line m = .ok result last) :
    result = .ofInstance ⟨m.fields.size, c⟩ := by
  rw [Value.apply] at h
  obtain ⟨object, after, hobject, h⟩ := of_bind_ok h
  cases hobject
  cases hinit : c.initializer? with
  | none =>
    rw [hinit] at h
    cases h
    rfl
  | some f =>
    rw [hinit] at h
    obtain ⟨bound, start, -, h⟩ := of_bind_ok h
    obtain ⟨ignored, later, -, h⟩ := of_bind_ok h
    cases h
    rfl

/-- The initializer is entered with the arguments, bound to the new instance. -/
theorem Configuration.children_class (n line : Nat) (arguments : List Value) {f : Function}
    (hglobal : 0 < m.store.size)
    (hinit : c.initializer? = some f) :
    ∃ bound start, children ⟨n + 1, m, .application (.ofClass c) arguments line⟩ =
        [⟨n, start, .entry bound arguments line⟩] ∧ bound.BoundTo start f ⟨m.fields.size, c⟩ := by
  obtain ⟨-, hbound, -⟩ := Run.boundTo_bind (m := { m with fields := m.fields.push ∅ }) hglobal
    (Run.bindMethod_apply f ⟨m.fields.size, c⟩ _)
  refine ⟨_, _, ?_, hbound⟩
  rw [children, Value.children, hinit]
  rfl

/-- In a table the mark of an initializer goes with the name. -/
theorem Class.Rooted.isInitializer {done : Configuration → Prop} {name : String} {f : Function}
    (h : c.Rooted done m) (hf : c.findMethod? name = some f) :
    f.isInitializer = decide (name = initializerName) := by
  obtain ⟨b, -, hget, d, -, hmade⟩ := h.method hf
  obtain ⟨-, hname, -, hmark⟩ := hmade.makes.method hget
  rw [hmark, hname]

end

/-! ### The main theorem -/

namespace Session

variable {programs : List Configuration} {before later : List Event} {e : Event}

/-- A function that is there was declared by itself, or else is a bound method. -/
theorem Course.origin (h : Course HostFunction.Inert programs)
    (hsplit : Configuration.events programs = before ++ e :: later) {f : Function}
    (hf : e.Has (.function f)) :
    (f.isInitializer = false ∧ ∃ n start,
      .begins ⟨n + 1, start, .statement (.function f.declaration)⟩ ∈ before ∧
      f.closure = start.environment ∧ f.id = start.nextIdentity) ∨
    (f.isInitializer = decide (f.declaration.name.text = initializerName) ∧
      ∃ d method i, .begins d ∈ before ∧ f.declaration ∈ d.methods ∧
        f.BoundTo e.machine method i ∧
        ∀ x ∈ later, f.closure.getAt? x.machine.store 0 "this" = some (.ofInstance i)) := by
  have hroots : f.Rooted (Configuration.Begins programs) e.machine :=
    (h.rooted_at hsplit).values _ hf
  rcases hroots.origin with ⟨hmark, n, start, hbegins, hclosure, hid⟩ |
    ⟨c, name, method, i, hc, hmethod, -, hbound⟩
  · refine .inl ⟨hmark, n, start, h.begins_before hsplit hbegins fun hg => ?_, hclosure, hid⟩
    exact absurd (hid ▸ hroots.id) (Nat.not_lt.2 hg.nextIdentity)
  · obtain ⟨b, -, hget, d, hbegins, hmade⟩ := hc.method hmethod
    obtain ⟨hmem, hname, -, hmark⟩ := hmade.makes.method hget
    refine .inr ⟨?_, d, method, i, h.begins_before hsplit hbegins hmade.not_grows, ?_, hbound,
      fun x hx => (hbound.mono (h.grows_later hsplit hx)).this⟩
    · rw [hbound.isInitializer, hmark, hbound.declaration]
    · rw [hbound.declaration]
      exact hmem

/-- Construction always yields the new instance. When a class is called in a session, it is with as many
arguments as it takes; its initializer, own or inherited, is entered with these and has as many
parameters, bound to an instance whose number no instance has had before, and this instance is the
result if the call ends without a failure. When a function with the mark of an initializer is entered,
it is bound to an instance, and the call comes to the same as running the body and giving this instance,
whatever the body gives. All functions that there are come of a declaration of them by themselves and
have no mark, or else they are methods, with the mark if their name is that of initializers, and bound
to an instance in the innermost scope of their closure, now and at all later events. -/
theorem construction_yields_new_instance (h : Course HostFunction.Inert programs)
    (hsplit : Configuration.events programs = before ++ e :: later) :
    (∀ n m c arguments line, e = .begins ⟨n + 1, m, .application (.ofClass c) arguments line⟩ →
      arguments.length = c.arity ∧
      (∀ f, c.initializer? = some f → ∃ bound start,
        Configuration.children ⟨n + 1, m, .application (.ofClass c) arguments line⟩ =
          [⟨n, start, .entry bound arguments line⟩] ∧
        bound.BoundTo start f ⟨m.fields.size, c⟩ ∧ bound.isInitializer = true ∧
        bound.arity = arguments.length) ∧
      (∀ x ∈ before ++ [e], ∀ i, x.Has (.ofInstance i) → i.id < m.fields.size) ∧
      ∀ result last, (Value.ofClass c).apply (n + 1) arguments line m = .ok result last →
        result = .ofInstance ⟨m.fields.size, c⟩) ∧
    (∀ n m f arguments line, e = .begins ⟨n + 1, m, .entry f arguments line⟩ →
      f.arity = arguments.length ∧
      (f.isInitializer = true → ∃ method i, f.BoundTo m method i ∧
        f.enter (n + 1) arguments line m =
          (Run.callBody n f arguments >>= fun _ => pure (.ofInstance i)) m)) ∧
    (∀ f, e.Has (.function f) →
      (f.isInitializer = false ∧ ∃ n start,
        .begins ⟨n + 1, start, .statement (.function f.declaration)⟩ ∈ before ∧
        f.closure = start.environment ∧ f.id = start.nextIdentity) ∨
      (f.isInitializer = decide (f.declaration.name.text = initializerName) ∧
        ∃ d method i, .begins d ∈ before ∧ f.declaration ∈ d.methods ∧
          f.BoundTo e.machine method i ∧
          ∀ x ∈ later, f.closure.getAt? x.machine.store 0 "this" = some (.ofInstance i))) ∧
    ∀ n m declaration, e = .begins ⟨n + 1, m, .statement (.function declaration)⟩ →
      (Stmt.function declaration).execute (n + 1) m = .ok .normal { m with
        nextIdentity := m.nextIdentity + 1
        store := m.store.put m.environment.scope declaration.name.text
          (.function ⟨m.nextIdentity, declaration, m.environment, false⟩) } := by
  have hroots := h.rooted_at hsplit
  have hmem : e ∈ Configuration.events programs := hsplit ▸ List.mem_append_right _ (.head _)
  refine ⟨?_, ?_, fun f hf => h.origin hsplit hf, fun n m declaration _ => by rw [Stmt.execute]; rfl⟩
  · rintro n m c arguments line rfl
    have hfits : c.arity = arguments.length :=
      Option.some.inj (h.fits (Configuration.begins_mem_events.1 hmem))
    have hclass : c.Rooted (Configuration.Begins programs) m := hroots.values _ (.given (.head _))
    refine ⟨hfits.symm, fun f hinit => ?_, fun x hx i hi => ?_, fun result last => Value.apply_class⟩
    · obtain ⟨bound, start, hchildren, hbound⟩ :=
        Configuration.children_class n line arguments hroots.machine.global hinit
      refine ⟨bound, start, hchildren, hbound, ?_, ?_⟩
      · rw [hbound.isInitializer, hclass.isInitializer hinit]
        rfl
      · rw [Function.arity, hbound.declaration, ← hfits, Class.arity, hinit]
        rfl
    · rcases List.mem_append.1 hx with hx | hx
      · have hx' : x ∈ Configuration.events programs := hsplit ▸ List.mem_append_left _ hx
        have hid : i.id < x.machine.fields.size :=
          ((h.rooted_event hx').values _ hi : Instance.Rooted _ _ i).id
        exact Nat.lt_of_lt_of_le hid (h.grows_earlier hsplit hx).fields
      · obtain rfl := List.mem_singleton.1 hx
        exact (hroots.values _ hi : Instance.Rooted _ _ i).id
  · rintro n m f arguments line rfl
    have hbegins := Configuration.begins_mem_events.1 hmem
    refine ⟨h.fits hbegins, fun hmark => ?_⟩
    rcases h.origin hsplit (.given (.head _)) with ⟨hnone, -⟩ | ⟨-, d, method, i, -, -, hbound, -⟩
    · cases hmark.symm.trans hnone
    · exact ⟨method, i, hbound, Function.enter_initializer_eq (h.begun.under _ hbegins) hmark
        hbound.isLocal hbound.this⟩

theorem construction_yields_new_instance_init :
    ∃ programs before later n m c arguments line, Course HostFunction.Inert programs ∧
      Configuration.events programs =
        before ++ .begins ⟨n + 1, m, .application (.ofClass c) arguments line⟩ :: later ∧
      arguments.length = c.arity ∧ ∀ result last,
        (Value.ofClass c).apply (n + 1) arguments line m = .ok result last →
          result = .ofInstance ⟨m.fields.size, c⟩ := by
  have hcalls : ((((start ⟨0⟩).withOutput .unlimited).program? 6 "class A { init() { } } A();").bind
      fun program => (program.descend? [1, 0, 0, 2]).bind (·.constructed?)).isSome = true := by
    decide +kernel
  obtain ⟨c, hc⟩ := Option.isSome_iff_exists.1 hcalls
  obtain ⟨program, hp, hc⟩ := Option.bind_eq_some_iff.1 hc
  obtain ⟨d, hd, hc⟩ := Option.bind_eq_some_iff.1 hc
  obtain ⟨n, m, arguments, line, rfl⟩ := Configuration.exists_of_constructed? hc
  have hcourse : Course HostFunction.Inert ([] ++ [program]) := .intro (.start ⟨0⟩ .unlimited) hp
  have hbegins := Configuration.begins_mem_events.2
    ⟨program, List.mem_singleton.2 rfl, Configuration.reaches_of_descend? hd⟩
  obtain ⟨before, later, hsplit⟩ := List.append_of_mem hbegins
  obtain ⟨harity, -, -, hresult⟩ :=
    (construction_yields_new_instance hcourse hsplit).1 n m c arguments line rfl
  exact ⟨_, before, later, n, m, c, arguments, line, hcourse, hsplit, harity, hresult⟩

end Session

end Lox
