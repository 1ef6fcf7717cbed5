import Lox.Proofs.Evaluation.RootedRuns

/-!
# The opening of scopes

A block opens a scope, and so do the call of a function, the binding of a method to an instance and
the declaration of a subclass. No place in the store is opened twice.

## Implementation notes

A scope is opened between two events that follow one another: the store has its place at the second
of them, and does not have it at the first. Two such pairs cannot be in the events of a run for one
place, and from the pair it can be told which task has opened the scope.
-/

namespace Lox

open Procedure Run

/-! ### What is opened -/

/-- What a scope is for: the variables of a block or of a call, or `this`, or `super`. -/
inductive Purpose where
  | code
  | receiver (object : Instance)
  | superclass (c : Class)

/-- What a scope binds for good. Only in a scope for code this changes. -/
def Purpose.bindings? : Purpose → Option (Table Value)
  | code => none
  | receiver object => some (.ofList [("this", .ofInstance object)])
  | superclass c => some (.ofList [("super", .ofClass c)])

/-- A new scope: its place in the store, the environment around it and what it is for. -/
structure Opening where
  place : ScopeId
  outside : Environment
  purpose : Purpose

/-- The environment that begins with the new scope. -/
def Opening.environment (o : Opening) : Environment := o.outside.inner o.place

/-- A method that is found for a property, as there is no field. -/
theorem Run.property_of_method {object : Instance} {name : Identifier} {method : Function}
    {m : Machine} (hfield : m.fields.get? object.id name.text = none)
    (hmethod : object.ofClass.findMethod? name.text = some method) :
    Run.property object name m =
      (do return .function (← Run.bind method object) : Run Value) m := by
  simp only [Run.property, bind_apply, Procedure.read, hfield, hmethod]

/-- A method that is found from the superclass on. -/
theorem Run.superMethod_of_method {id : NodeId} {line depth : Nat} {name : Identifier}
    {superclass : Class} {object : Instance} {method : Function} {m : Machine}
    (hdepth : m.depths[id]? = some depth)
    (hsuper : m.environment.getAt? m.store depth "super" = some (.ofClass superclass))
    (hthis : m.environment.getAt? m.store (depth - 1) "this" = some (.ofInstance object))
    (hmethod : superclass.findMethod? name.text = some method) :
    Run.superMethod id line name m =
      (do return .function (← Run.bind method object) : Run Value) m := by
  simp only [Run.superMethod, bind_apply, Procedure.read, hdepth, hsuper, hthis, hmethod]

namespace Configuration

/-- The task binds the method to the instance, on this machine. -/
inductive Binds : Configuration → Machine → Function → Instance → Prop where
  | property {n m object name found after method}
      (hobject : object.evaluate n m = .ok (.ofInstance found) after)
      (hfield : after.fields.get? found.id name.text = none)
      (hmethod : found.ofClass.findMethod? name.text = some method) :
      Binds ⟨n + 1, m, .expression (.get object name)⟩ after method found
  | superMethod {n m id line name depth superclass object method}
      (hdepth : m.depths[id]? = some depth)
      (hsuper : m.environment.getAt? m.store depth "super" = some (.ofClass superclass))
      (hthis : m.environment.getAt? m.store (depth - 1) "this" = some (.ofInstance object))
      (hmethod : superclass.findMethod? name.text = some method) :
      Binds ⟨n + 1, m, .expression (.super id line name)⟩ m method object
  | initializer {n m c arguments line object after method}
      (hobject : instantiate c m = .ok object after) (hmethod : c.initializer? = some method) :
      Binds ⟨n + 1, m, .application (.ofClass c) arguments line⟩ after method object

/-- The task opens the scope by itself. -/
inductive Opens : Configuration → Opening → Prop where
  | block {n m body} :
      Opens ⟨n + 1, m, .statement (.block body)⟩ ⟨m.store.size, m.environment, .code⟩
  | entry {n m f arguments line} :
      Opens ⟨n + 1, m, .entry f arguments line⟩ ⟨m.store.size, f.closure, .code⟩
  | bound {c m method object} (h : Binds c m method object) :
      Opens c ⟨m.store.size, method.closure, .receiver object⟩
  | derived {n m name target methods superclass}
      (h : superclass? target m = .ok (some superclass) m) :
      Opens ⟨n + 1, m, .statement (.classDef name target methods)⟩
        ⟨m.store.size, m.environment, .superclass superclass⟩

variable {c d : Configuration} {m m' after : Machine} {method method' : Function}
  {object object' : Instance} {o o' : Opening}

theorem Binds.functional (h : c.Binds m method object) (h' : c.Binds m' method' object') :
    m = m' ∧ method = method' ∧ object = object' := by
  cases h with
  | property hobject hfield hmethod =>
    cases h' with
    | property hobject' hfield' hmethod' =>
      obtain ⟨⟨⟩, rfl⟩ := Outcome.ok.inj (hobject.symm.trans hobject')
      exact ⟨rfl, Option.some.inj (hmethod.symm.trans hmethod'), rfl⟩
  | superMethod hdepth hsuper hthis hmethod =>
    cases h' with
    | superMethod hdepth' hsuper' hthis' hmethod' =>
      obtain rfl := Option.some.inj (hdepth.symm.trans hdepth')
      cases hsuper.symm.trans hsuper'
      cases hthis.symm.trans hthis'
      exact ⟨rfl, Option.some.inj (hmethod.symm.trans hmethod'), rfl⟩
  | initializer hobject hmethod =>
    cases h' with
    | initializer hobject' hmethod' =>
      obtain ⟨rfl, rfl⟩ := Outcome.ok.inj (hobject.symm.trans hobject')
      exact ⟨rfl, Option.some.inj (hmethod.symm.trans hmethod'), rfl⟩

/-- A task opens one scope by itself at most. -/
theorem Opens.functional (h : c.Opens o) (h' : c.Opens o') : o = o' := by
  cases h with
  | block | entry =>
    cases h' with
    | bound hbinds => cases hbinds
    | _ => rfl
  | bound hbinds =>
    cases h' with
    | bound hbinds' =>
      obtain ⟨rfl, rfl, rfl⟩ := hbinds.functional hbinds'
      rfl
    | _ => cases hbinds
  | derived hsuperclass =>
    cases h' with
    | bound hbinds => cases hbinds
    | derived hsuperclass' =>
      cases hsuperclass.symm.trans hsuperclass'
      rfl

/-! ### When it is opened -/

/-- Between these two events the task acts by itself: before its first part, or at its end. -/
inductive ActsBetween (c : Configuration) : Event → Event → Prop where
  | first {d : Configuration} : ActsBetween c (.begins c) (.begins d)
  | last {x : Event} {after : Machine} : ActsBetween c x (.ends c after)

theorem ActsBetween.functional {x y : Event} (h : c.ActsBetween x y) (h' : d.ActsBetween x y) :
    c = d := by
  cases h <;> cases h' <;> rfl

section Trace

variable {rest : List Configuration}

theorem infix_trace_of_first (h : c.children = d :: rest) :
    [.begins c, .begins d] <:+: c.trace := by
  rw [trace_eq, h, List.flatMap_cons, trace_eq d]
  simp only [List.cons_append]
  exact (List.prefix_append [Event.begins c, Event.begins d] _).isInfix

theorem infix_trace_of_single (h : c.children = [d]) (hd : d.after? = some m)
    (hc : c.after? = some after) : [.ends d m, .ends c after] <:+: c.trace := by
  rw [trace_eq, h, hc, List.flatMap_singleton, trace_eq d, hd]
  exact ⟨.begins c :: .begins d :: d.children.flatMap trace, [], by simp⟩

theorem infix_trace_of_none (h : c.children = []) (hc : c.after? = some after) :
    [.begins c, .ends c after] <:+: c.trace := by
  rw [trace_eq, h, hc]
  exact List.infix_rfl

/-- The events of a task stand together among those of a task that leads to it. -/
theorem Reaches.infix_trace (h : c.Reaches d) : d.trace <:+: c.trace := by
  induction h using Relation.ReflTransGen.head_induction_on with
  | refl => exact List.infix_rfl
  | @head c e hstarts _ ih =>
    have hpart : e.trace <:+: c.children.flatMap trace := by
      rw [List.flatMap_def]
      exact List.infix_of_mem_flatten (List.mem_map_of_mem hstarts.mem_children)
    rw [trace_eq c]
    exact (ih.trans hpart).trans ⟨[.begins c], _, rfl⟩

end Trace

theorem Binds.exists_between (h : c.Binds m method object) :
    ∃ x y, [x, y] <:+: c.trace ∧ c.ActsBetween x y ∧ x.machine.store.size ≤ m.store.size ∧
      m.store.size < y.machine.store.size := by
  cases h with
  | @property n m₀ e name found _ _ hobject hfield hmethod =>
    have hlast : (Expr.get e name).evaluate (n + 1) m₀ =
        (do return .function (← Run.bind method object) : Run Value) m := by
      rw [Expr.evaluate, bind_apply_of_ok hobject]
      exact Run.property_of_method hfield hmethod
    have hd : Configuration.after? ⟨n, m₀, .expression e⟩ = some m :=
      congrArg Outcome.state? hobject
    exact ⟨_, _, infix_trace_of_single rfl hd (congrArg Outcome.state? hlast), .last, Nat.le_refl _,
      Store.size_lt_push ..⟩
  | @superMethod n _ id line name depth superclass _ _ hdepth hsuper hthis hmethod =>
    have hlast : (Expr.super id line name).evaluate (n + 1) m =
        (do return .function (← Run.bind method object) : Run Value) m := by
      rw [Expr.evaluate]
      exact Run.superMethod_of_method hdepth hsuper hthis hmethod
    exact ⟨_, _, infix_trace_of_none rfl (congrArg Outcome.state? hlast), .last, Nat.le_refl _,
      Store.size_lt_push ..⟩
  | @initializer n m₀ k arguments line _ _ _ hobject hmethod =>
    have hchildren : Configuration.children ⟨n + 1, m₀, .application (.ofClass k) arguments line⟩ =
        (Run.bind method object m).next fun f later => [⟨n, later, .entry f arguments line⟩] := by
      rw [children, Value.children, hobject]
      simp only [Outcome.next, hmethod]
    cases hobject
    exact ⟨_, _, infix_trace_of_first hchildren, .first, Nat.le_refl _, Store.size_lt_push ..⟩

/-- The scope is opened between two events of the task, between which it acts by itself. -/
theorem Opens.exists_between (h : c.Opens o) :
    ∃ x y, [x, y] <:+: c.trace ∧ c.ActsBetween x y ∧ x.machine.store.size ≤ o.place ∧
      o.place < y.machine.store.size := by
  cases h with
  | block | entry =>
    exact ⟨_, _, infix_trace_of_first rfl, .first, Nat.le_refl _, Store.size_lt_push ..⟩
  | bound hbinds => exact hbinds.exists_between
  | @derived n m name target methods superclass hsuperclass =>
    have hlast : Configuration.after? ⟨n + 1, m, .statement (.classDef name target methods)⟩ =
        some (m.withClass name (some superclass) methods) :=
      congrArg Outcome.state? (Stmt.execute_classDef_of_ok hsuperclass)
    have hlt : m.store.size < (m.withClass name (some superclass) methods).store.size := by
      show _ < (Store.put (Store.push (Store.put m.store _ _ _) _) _ _ _).size
      rw [Store.size_put, Store.size_push, Store.size_put]
      exact Nat.lt_succ_self _
    cases target with
    | none => cases hsuperclass
    | some target =>
      have hd : Configuration.after? ⟨n + 1, m, .expression (.reference target)⟩ = some m := by
        show (valueOf target.id target.name.text target.name.line m).state? = _
        rw [valueOf_apply]
        cases m.valueOf? target.id target.name.text <;> rfl
      exact ⟨_, _, infix_trace_of_single rfl hd hlast, .last, Nat.le_refl _, hlt⟩

/-- The place of a new scope lies behind those that the task has found. -/
theorem Opens.size_le (h : c.Opens o) (hc : c.Under .ofReading) :
    c.machine.store.size ≤ o.place := by
  obtain ⟨x, y, hxy, -, hle, -⟩ := h.exists_between
  have hx : x ∈ c.trace := hxy.subset (.head _)
  exact Nat.le_trans (hc.traced.path.grows hx).store.size hle

end Configuration

/-! ### Where it is opened -/

namespace Event

variable {m : Machine} {events : List Event} {x y x' y' : Event} {place : ScopeId}

/-- Along events that follow one another, only two neighbours have a place between them. -/
theorem Path.neighbours_eq (h : Path m events) (hxy : [x, y] <:+: events)
    (hxy' : [x', y'] <:+: events) (hx : x.machine.store.size ≤ place)
    (hy : place < y.machine.store.size) (hx' : x'.machine.store.size ≤ place)
    (hy' : place < y'.machine.store.size) : x = x' ∧ y = y' := by
  -- The pair that comes first has its second event at the start of the other pair or before it.
  have hlater : ∀ {m e rest z}, Path m (e :: rest) → place < e.machine.store.size →
      z ∈ e :: rest → place < z.machine.store.size := by
    intro m e rest z hpath hplace hz
    rcases List.mem_cons.1 hz with rfl | hz
    · exact hplace
    · exact Nat.lt_of_lt_of_le hplace (hpath.2.grows hz).store.size
  induction events generalizing m with
  | nil => cases List.eq_nil_of_infix_nil hxy
  | cons first rest ih =>
    rw [List.infix_cons_iff] at hxy hxy'
    rcases hxy with hxy | hxy
    · obtain ⟨rfl, more, rfl⟩ := List.cons_prefix_cons.1 hxy
      rcases hxy' with hxy' | hxy'
      · obtain ⟨hfirst, hsecond⟩ := List.cons_prefix_cons.1 hxy'
        exact ⟨hfirst.symm, (List.cons_prefix_cons.1 hsecond).1.symm⟩
      · exact absurd hx' (Nat.not_le.2 (hlater h.2 hy (hxy'.subset (.head _))))
    · rcases hxy' with hxy' | hxy'
      · obtain ⟨rfl, more, rfl⟩ := List.cons_prefix_cons.1 hxy'
        exact absurd hx (Nat.not_le.2 (hlater h.2 hy' (hxy.subset (.head _))))
      · exact ih h.2 hxy hxy'

end Event

section Opened

variable (done : Configuration → Prop)

/-- A task that has been begun opens the scope. -/
def Opened (o : Opening) : Prop := ∃ c, done c ∧ c.Opens o

/-- The scope `outer` is next around the scope `inner`, which has been opened. -/
def Links (inner outer : ScopeId) : Prop :=
  ∃ o, Opened done o ∧ o.place = inner ∧ o.outside.scope = outer

end Opened

end Lox
