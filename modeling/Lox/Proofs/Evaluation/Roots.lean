import Lox.Proofs.Evaluation.Content
import Lox.Proofs.Evaluation.Threads
import Lox.Proofs.Syntax.Supers

/-!
# Where functions, classes and instances come from

A class comes of a declaration that has been executed. A function comes of its declaration, or else it
is a method of such a class, bound to an instance. The code of a method that has `super` expressions
stays where it can reach the scopes of `this` and `super` that were made for it.

## Implementation notes

The tasks that have been begun are a parameter, `done`. Only that they include what they start will be
asked of them, so that they may be those of a whole session.
-/

namespace Lox

open Procedure Run

/-! ### Chains of classes -/

namespace Class

/-- The class and the classes above it, nearest first. -/
def chain : Class → List Class
  | ⟨id, name, none, methods⟩ => [⟨id, name, none, methods⟩]
  | ⟨id, name, some superclass, methods⟩ =>
    ⟨id, name, some superclass, methods⟩ :: superclass.chain

theorem mem_chain_self (c : Class) : c ∈ c.chain := by
  match c with
  | ⟨_, _, none, _⟩ | ⟨_, _, some _, _⟩ => exact .head _

theorem mem_chain_iff {b c : Class} :
    b ∈ c.chain ↔ b = c ∨ ∃ a, c.superclass = some a ∧ b ∈ a.chain := by
  match c with
  | ⟨_, _, none, _⟩ => simp [chain]
  | ⟨_, _, some _, _⟩ => simp [chain]

/-- A method is looked for in one class of the chain after the other. -/
theorem findMethod?_eq (name : String) (c : Class) :
    c.findMethod? name = c.chain.findSome? (·.methods.get? name) := by
  match c with
  | ⟨_, _, none, methods⟩ => cases h : methods.get? name <;> simp [findMethod?, chain, h]
  | ⟨_, _, some superclass, methods⟩ =>
    rw [findMethod?, findMethod?_eq name superclass, chain, List.findSome?_cons]
    cases methods.get? name <;> rfl

theorem exists_mem_chain {name : String} {c : Class} {f : Function}
    (h : c.findMethod? name = some f) : ∃ b ∈ c.chain, b.methods.get? name = some f := by
  rw [findMethod?_eq] at h
  exact List.exists_of_findSome?_eq_some h

end Class

/-! ### Class declarations -/

/-- The environment that the methods of a class are declared in. -/
def Machine.methodEnvironment (m : Machine) : Option Class → Environment
  | some _ => m.environment.inner m.store.size
  | none => m.environment

/-- The class that a declaration makes. -/
def Machine.declaredClass (m : Machine) (name : Identifier) (superclass : Option Class)
    (methods : List FunctionDef) : Class :=
  ⟨m.nextIdentity, name.text, superclass,
    methodTable (m.nextIdentity + 1) (m.methodEnvironment superclass) methods⟩

namespace Configuration

/-- The task is a class declaration, and this is the class that it makes. -/
inductive Makes : Configuration → Class → Prop where
  | intro {n m name target superclass methods}
      (hsuperclass : superclass? target m = .ok superclass m) :
      Makes ⟨n + 1, m, .statement (.classDef name target methods)⟩
        (m.declaredClass name superclass methods)

/-- The methods in a class declaration. -/
def methods (d : Configuration) : List FunctionDef :=
  match d.task with
  | .statement (.classDef _ _ methods) => methods
  | _ => []

/-- The `super` expressions that belong to a class declaration. -/
def supers (d : Configuration) : List (SuperUse × Nat) := Stmt.methodSupers d.methods

variable {d : Configuration} {c : Class} {name : String} {f : Function}

/-- What is in the table of a class. -/
theorem Makes.method (h : d.Makes c) (hf : c.methods.get? name = some f) :
    f.declaration ∈ d.methods ∧ f.declaration.name.text = name ∧
      f.closure = d.machine.methodEnvironment c.superclass ∧
      f.isInitializer = decide (f.declaration.name.text = initializerName) := by
  cases h with
  | intro =>
    obtain ⟨i, hi, he⟩ := List.mem_mapIdx.1 (Table.mem_of_get?_ofList hf)
    cases he
    exact ⟨List.getElem_mem hi, rfl, rfl, rfl⟩

end Configuration

/-! ### Growth of origins -/

/-- A function of the host that gives plain values and values that it was given. -/
def HostFunction.Inert (f : HostFunction) : Prop :=
  ∀ arguments value, f arguments = .ok value → value.IsPlain ∨ value ∈ arguments

/-- The task made the class, and the machine comes after it. -/
structure Configuration.Made (d : Configuration) (m : Machine) (c : Class) : Prop where
  makes : d.Makes c
  id : c.id < m.nextIdentity
  above : ∀ a, c.superclass = some a → a.id < c.id ∧ 0 < d.machine.store.size ∧
    m.store.get? d.machine.store.size "super" = some (.ofClass a)
  supers : ∀ p ∈ d.supers, c.superclass.isSome = true ∧ m.depths[p.1.id]? = some p.2
  classes : ∀ f ∈ d.methods, ∀ parts ∈ Stmt.functionClasses f,
    parts.Recorded fun id => m.depths[id]?

/-- The environment is inside a method of a class that the task made: next to the scope of its `super`
there is the scope of `this`, and inside it are the scopes `inner`. -/
structure Configuration.Around (d : Configuration) (m : Machine) (env : Environment)
    (inner : List ScopeId) (this : ScopeId) (object : Instance) : Prop where
  above : ∃ c a, d.Makes c ∧ c.superclass = some a ∧ 0 < d.machine.store.size ∧
    m.store.get? d.machine.store.size "super" = some (.ofClass a)
  chain : env.chain = inner ++ this :: (d.machine.environment.inner d.machine.store.size).chain
  inner : ∀ scope ∈ inner, 0 < scope ∧ scope < m.store.size ∧ m.store.get? scope "this" = none
  isLocal : 0 < this
  this : m.store.get? this "this" = some (.ofInstance object)

section Roots

variable (done : Configuration → Prop)

/-- A `super` expression in this environment belongs to a class declaration that has been executed, and
the scopes that were made for it are at the depth that is recorded. -/
def Machine.Houses (m : Machine) (env : Environment) (p : SuperUse × Nat) : Prop :=
  ∃ d inner this object, done d ∧ d.Around m env inner this object ∧
    (p.1, p.2 + (inner.length + 1)) ∈ d.supers ∧
    m.depths[p.1.id]? = some (p.2 + (inner.length + 1))

def Class.Rooted (m : Machine) (c : Class) : Prop := ∀ b ∈ c.chain, ∃ d, done d ∧ d.Made m b

structure Instance.Rooted (m : Machine) (object : Instance) : Prop where
  id : object.id < m.fields.size
  ofClass : object.ofClass.Rooted done m

/-- The function comes of a declaration of it that has been executed. -/
def Function.Declared (f : Function) : Prop :=
  f.isInitializer = false ∧ ∃ n m, done ⟨n + 1, m, .statement (.function f.declaration)⟩ ∧
    f.closure = m.environment ∧ f.id = m.nextIdentity

/-- The function is a method that was bound to an instance. -/
structure Function.BoundTo (m : Machine) (f method : Function) (object : Instance) : Prop where
  declaration : f.declaration = method.declaration
  isInitializer : f.isInitializer = method.isInitializer
  closure : f.closure = method.closure.inner f.closure.scope
  isLocal : 0 < f.closure.scope
  this : m.store.get? f.closure.scope "this" = some (.ofInstance object)

/-- The function is a method of a class that was bound to an instance. -/
def Function.Bound (m : Machine) (f : Function) : Prop :=
  ∃ c name method object, Class.Rooted done m c ∧ c.findMethod? name = some method ∧
    object.Rooted done m ∧ f.BoundTo m method object

structure Function.Rooted (m : Machine) (f : Function) : Prop where
  id : f.id < m.nextIdentity
  classes : ∀ parts ∈ Stmt.functionClasses f.declaration, parts.Recorded fun id => m.depths[id]?
  supers : ∀ p ∈ Stmt.functionSupers f.declaration, m.Houses done f.closure p
  origin : f.Declared done ∨ f.Bound done m

def Value.Rooted (m : Machine) : Value → Prop
  | .function f => f.Rooted done m
  | .ofClass c => c.Rooted done m
  | .ofInstance object => object.Rooted done m
  | _ => True

/-- All values in the machine come of what has been done. -/
structure Machine.Rooted (m : Machine) : Prop where
  global : 0 < m.store.size
  store : ∀ scope name value, m.store.get? scope name = some value → value.Rooted done m
  fields : ∀ object name value, m.fields.get? object name = some value → value.Rooted done m
  hostFunctions : ∀ f ∈ m.hostFunctions, HostFunction.Inert f

def Completion.Rooted (m : Machine) : Completion → Prop
  | .normal => True
  | .returned value => value.Rooted done m

end Roots

section Growth

variable {done : Configuration → Prop} {m after : Machine} {env : Environment}

theorem ClassParts.Recorded.mono {depths others : Depths} {parts : ClassParts}
    (h : parts.Recorded depths)
    (hd : ∀ id depth, depths id = some depth → others id = some depth) : parts.Recorded others :=
  fun p hp => ⟨(h p hp).1, hd _ _ (h p hp).2⟩

theorem Configuration.Made.mono {d : Configuration} {c : Class} (h : d.Made m c)
    (hg : m.Grows after) : d.Made after c where
  makes := h.makes
  id := Nat.lt_of_lt_of_le h.id hg.nextIdentity
  above a ha := by
    obtain ⟨hid, hlocal, hsuper⟩ := h.above a ha
    exact ⟨hid, hlocal, hg.store.eq_some hlocal not_ordinary_super hsuper⟩
  supers p hp := ⟨(h.supers p hp).1, hg.depths _ _ (h.supers p hp).2⟩
  classes f hf parts hparts := (h.classes f hf parts hparts).mono hg.depths

theorem Configuration.Around.mono {d : Configuration} {inner : List ScopeId} {this : ScopeId}
    {object : Instance} (h : d.Around m env inner this object) (hg : m.Grows after) :
    d.Around after env inner this object where
  above := by
    obtain ⟨c, a, hmakes, ha, hlocal, hsuper⟩ := h.above
    exact ⟨c, a, hmakes, ha, hlocal, hg.store.eq_some hlocal not_ordinary_super hsuper⟩
  chain := h.chain
  inner scope hscope := by
    obtain ⟨hlocal, hlt, hnone⟩ := h.inner scope hscope
    exact ⟨hlocal, Nat.lt_of_lt_of_le hlt hg.store.size,
      (hg.store.get? scope _ hlocal hlt not_ordinary_this).trans hnone⟩
  isLocal := h.isLocal
  this := hg.store.eq_some h.isLocal not_ordinary_this h.this

theorem Machine.Houses.mono {p : SuperUse × Nat} (h : m.Houses done env p) (hg : m.Grows after) :
    after.Houses done env p := by
  obtain ⟨d, inner, this, object, hd, haround, hmem, hdepth⟩ := h
  exact ⟨d, inner, this, object, hd, haround.mono hg, hmem, hg.depths _ _ hdepth⟩

theorem Class.Rooted.mono {c : Class} (h : c.Rooted done m) (hg : m.Grows after) :
    c.Rooted done after := by
  intro b hb
  obtain ⟨d, hd, hmade⟩ := h b hb
  exact ⟨d, hd, hmade.mono hg⟩

theorem Instance.Rooted.mono {object : Instance} (h : object.Rooted done m) (hg : m.Grows after) :
    object.Rooted done after :=
  ⟨Nat.lt_of_lt_of_le h.id hg.fields, h.ofClass.mono hg⟩

theorem Function.BoundTo.mono {f method : Function} {object : Instance}
    (h : f.BoundTo m method object) (hg : m.Grows after) : f.BoundTo after method object :=
  { h with this := hg.store.eq_some h.isLocal not_ordinary_this h.this }

theorem Function.Rooted.mono {f : Function} (h : f.Rooted done m) (hg : m.Grows after) :
    f.Rooted done after where
  id := Nat.lt_of_lt_of_le h.id hg.nextIdentity
  classes parts hparts := (h.classes parts hparts).mono hg.depths
  supers p hp := (h.supers p hp).mono hg
  origin := by
    refine h.origin.imp_right ?_
    rintro ⟨c, name, method, object, hc, hmethod, hobject, hbound⟩
    exact ⟨c, name, method, object, hc.mono hg, hmethod, hobject.mono hg, hbound.mono hg⟩

theorem Value.Rooted.mono {value : Value} (h : value.Rooted done m) (hg : m.Grows after) :
    value.Rooted done after := by
  cases value with
  | function f => exact Function.Rooted.mono h hg
  | ofClass c => exact Class.Rooted.mono h hg
  | ofInstance object => exact Instance.Rooted.mono h hg
  | _ => trivial

theorem Value.IsPlain.rooted {value : Value} (h : value.IsPlain) : value.Rooted done m := by
  cases value with
  | function _ | ofClass _ | ofInstance _ => exact h.elim
  | _ => trivial

/-- A machine that has grown, with no values but those that it had and others that have roots. -/
theorem Machine.Rooted.grow (h : m.Rooted done) (hg : m.Grows after)
    (hstore : ∀ scope name value, after.store.get? scope name = some value →
      value.Rooted done m ∨ m.store.get? scope name = some value)
    (hfields : ∀ object name value, after.fields.get? object name = some value →
      value.Rooted done m ∨ m.fields.get? object name = some value)
    (hhost : after.hostFunctions = m.hostFunctions) : after.Rooted done where
  global := Nat.lt_of_lt_of_le h.global hg.store.size
  store scope name value hv :=
    ((hstore scope name value hv).elim id (h.store scope name value)).mono hg
  fields object name value hv :=
    ((hfields object name value hv).elim id (h.fields object name value)).mono hg
  hostFunctions := hhost ▸ h.hostFunctions

theorem Machine.Rooted.of_eq (h : m.Rooted done) (hs : after.store = m.store)
    (hf : after.fields = m.fields) (hi : after.nextIdentity = m.nextIdentity)
    (hd : after.depths = m.depths) (hh : after.hostFunctions = m.hostFunctions) :
    after.Rooted done :=
  h.grow (.of_eq hs hf hi hd) (fun _ _ _ hv => .inr (hs ▸ hv)) (fun _ _ _ hv => .inr (hf ▸ hv)) hh

theorem Machine.Rooted.put (h : m.Rooted done) (scope : ScopeId) {name : String} {value : Value}
    (hname : OrdinaryName name) (hv : value.Rooted done m) :
    { m with store := m.store.put scope name value }.Rooted done := by
  refine h.grow (.put m scope value hname) (fun other key found hfound => ?_)
    (fun _ _ _ hf => .inr hf) rfl
  rcases Store.get?_of_put hfound with rfl | hold
  · exact .inl hv
  · exact .inr hold

theorem Machine.Rooted.push (h : m.Rooted done) (bindings : Table Value)
    (hb : ∀ name value, bindings.get? name = some value → value.Rooted done m) :
    { m with store := m.store.push bindings }.Rooted done := by
  refine h.grow (.push m bindings) (fun scope name value hv => ?_) (fun _ _ _ hf => .inr hf) rfl
  exact (Store.get?_of_push hv).symm.imp_left (hb name value)

theorem Machine.Rooted.instantiate (h : m.Rooted done) :
    { m with fields := m.fields.push ∅ }.Rooted done := by
  refine h.grow (.instantiate m) (fun _ _ _ hv => .inr hv) (fun object name value hv => .inr ?_) rfl
  exact (Store.get?_of_push hv).resolve_right nofun

theorem Machine.Rooted.freshIdentity (h : m.Rooted done) (count : Nat) :
    { m with nextIdentity := m.nextIdentity + count }.Rooted done :=
  h.grow (.freshIdentity m count) (fun _ _ _ hv => .inr hv) (fun _ _ _ hv => .inr hv) rfl

theorem Machine.Rooted.setField (h : m.Rooted done) (object : Instance) (name : String)
    {value : Value} (hv : value.Rooted done m) :
    { m with fields := m.fields.put object.id name value }.Rooted done := by
  refine h.grow (.setField m object name value) (fun _ _ _ hv => .inr hv)
    (fun other key found hfound => ?_) rfl
  rcases Store.get?_of_put hfound with rfl | hold
  · exact .inl hv
  · exact .inr hold

/-! ### Methods -/

/-- The method found in a class belongs to a declaration that has been executed. -/
theorem Class.Rooted.method {c : Class} {name : String} {f : Function} (h : c.Rooted done m)
    (hf : c.findMethod? name = some f) :
    ∃ b ∈ c.chain, b.methods.get? name = some f ∧ ∃ d, done d ∧ d.Made m b := by
  obtain ⟨b, hb, hget⟩ := Class.exists_mem_chain hf
  exact ⟨b, hb, hget, h b hb⟩

/-- The outcome of binding a method. -/
theorem Run.bindMethod_apply (method : Function) (object : Instance) (m : Machine) :
    Run.bind method object m =
      .ok ⟨m.nextIdentity, method.declaration, method.closure.inner m.store.size,
          method.isInitializer⟩
        { m with
          store := m.store.push (.ofList [("this", .ofInstance object)])
          nextIdentity := m.nextIdentity + 1 } := rfl

/-- A bound method has roots. -/
theorem Machine.Rooted.bindMethod {c : Class} {name : String} {method : Function}
    {object : Instance} (h : m.Rooted done) (hc : c.Rooted done m)
    (hmethod : c.findMethod? name = some method) (ho : object.Rooted done m) {f : Function}
    (hbind : Run.bind method object m = .ok f after) :
    m.Grows after ∧ after.Rooted done ∧ f.Rooted done after ∧ f.BoundTo after method object := by
  have hmoves : m.Moves after := (Leads.bindMethod method object).of_ok hbind
  have hg : m.Grows after := hmoves.grows
  cases hbind
  have hpushed := h.push (.ofList [("this", .ofInstance object)]) fun key value hv => by
    rw [Table.get?_ofList_singleton] at hv
    split at hv
    · cases hv
      exact ho
    · cases hv
  have hthis : (m.store.push (.ofList [("this", .ofInstance object)])).get? m.store.size "this" =
      some (.ofInstance object) := by
    rw [Store.get?_push_size, Table.get?_ofList_singleton, if_pos rfl]
  have hbound : Function.BoundTo
      { m with
        store := m.store.push (.ofList [("this", .ofInstance object)])
        nextIdentity := m.nextIdentity + 1 }
      ⟨m.nextIdentity, method.declaration, method.closure.inner m.store.size, method.isInitializer⟩
      method object :=
    ⟨rfl, rfl, rfl, h.global, hthis⟩
  refine ⟨hg, hpushed.freshIdentity 1, ?_, hbound⟩
  obtain ⟨b, -, hget, d, hd, hmade⟩ := hc.method hmethod
  obtain ⟨hmem, -, hclosure, -⟩ := hmade.makes.method hget
  have hlater := hmade.mono hg
  refine ⟨Nat.lt_succ_self _, hlater.classes _ hmem, fun p hp => ?_,
    .inr ⟨c, name, method, object, hc.mono hg, hmethod, ho.mono hg, hbound⟩⟩
  have hdeeper := Stmt.mem_methodSupers hmem hp
  obtain ⟨hsome, hdepth⟩ := hlater.supers _ hdeeper
  obtain ⟨a, ha⟩ := Option.isSome_iff_exists.1 hsome
  obtain ⟨-, hlocal, hsuper⟩ := hlater.above a ha
  refine ⟨d, [], m.store.size, object, hd, ⟨⟨b, a, hmade.makes, ha, hlocal, hsuper⟩, ?_, nofun,
    h.global, hthis⟩, hdeeper, hdepth⟩
  show m.store.size :: method.closure.chain = _
  rw [hclosure, ha]
  rfl

/-- In a new scope that binds no `this`, `super` is one scope further away. -/
theorem Machine.Houses.inner {p : SuperUse × Nat} {bindings : Table Value}
    (h : m.Houses done env (Stmt.deeper p)) (hglobal : 0 < m.store.size)
    (hb : bindings.get? "this" = none) :
    ({ m with store := m.store.push bindings } : Machine).Houses done
      (env.inner m.store.size) p := by
  obtain ⟨d, inner, this, object, hd, haround, hmem, hdepth⟩ := h.mono (.push m bindings)
  have hlength : p.2 + ((m.store.size :: inner).length + 1) = p.2 + 1 + (inner.length + 1) := by
    rw [List.length_cons]
    omega
  refine ⟨d, m.store.size :: inner, this, object, hd,
    { haround with chain := ?_, inner := fun scope hscope => ?_ }, ?_, ?_⟩
  · show m.store.size :: env.chain = _
    rw [haround.chain]
    rfl
  · rcases List.mem_cons.1 hscope with rfl | hscope
    · refine ⟨hglobal, ?_, (Store.get?_push_size _ _ _).trans hb⟩
      show m.store.size < (m.store.push bindings).size
      rw [Store.size_push]
      exact Nat.lt_succ_self _
    · exact haround.inner scope hscope
  · rw [hlength]
    exact hmem
  · rw [hlength]
    exact hdepth

end Growth

end Lox
