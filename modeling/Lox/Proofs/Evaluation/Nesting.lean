import Lox.Proofs.Evaluation.Holdings
import Lox.Proofs.Evaluation.Openings

/-!
# Nested environments

The scopes of a nested environment were opened one inside the other, the first of them in the global
scope. In a scope of `this` or `super` resolution has seen that name alone, so that the code in a
nested environment writes into the scopes of blocks and calls only, and into the global one. The
other scopes stay as they were made.

## Implementation notes

The tasks that have been begun are a parameter, `done`, as for roots, and so are the depths that are
recorded in the end. What is said of an environment or a value depends on the machine by the size of
its store alone. A local variable may be assigned to in its own initial value here. Then the scope
to write into is the right one, though it has no such name yet.
-/

namespace Lox

open Procedure

/-! ### Environments -/

/-- Resolution may have seen these names in a scope that is opened for this. -/
def Purpose.Names : Purpose → List String → Prop
  | code, _ => True
  | receiver _, names => names = ["this"]
  | superclass _, names => names = ["super"]

/-- The environment has scopes that were opened one inside the other, the innermost one for this
purpose. Resolution has seen these names in them. -/
inductive Environment.Nested (done : Configuration → Prop) :
    Purpose → Environment → ScopeNames → Prop where
  | global : Nested done .code .global []
  | inner {p q : Purpose} {outside : Environment} {names : ScopeNames} {place : ScopeId}
      {list : List String} (around : Nested done p outside names)
      (opened : Opened done ⟨place, outside, q⟩) (hnames : q.Names list) :
      Nested done q (outside.inner place) (list :: names)

variable {done : Configuration → Prop} {depths : Depths} {m after : Machine} {c : Configuration}

namespace Environment.Nested

variable {p : Purpose} {env : Environment} {names : ScopeNames} {name : String} {depth : Nat}

/-- Each scope is next inside the one that follows. -/
theorem chain_links (h : env.Nested done p names) : env.chain.IsChain (Links done) := by
  induction h with
  | global => exact .singleton 0
  | @inner p q outside names place list _ opened _ ih =>
    apply List.IsChain.cons_cons _ ih
    exact ⟨_, opened, rfl, rfl⟩

/-- The global scope comes last. -/
theorem getLast?_chain (h : env.Nested done p names) : env.chain.getLast? = some 0 := by
  induction h with
  | global => rfl
  | @inner p q outside names place list _ _ _ ih =>
    show (place :: outside.chain).getLast? = some 0
    rw [List.getLast?_cons, ih]
    rfl

/-- Code may declare names in its scope. -/
theorem declare (h : env.Nested done .code names) (name : String) :
    env.Nested done .code (names.declare name) := by
  cases h with
  | global => exact .global
  | inner around opened _ => exact .inner around opened trivial

/-- At the depth of an ordinary name there is a scope for code. -/
theorem ancestor? (h : env.Nested done p names) (hname : OrdinaryName name)
    (hd : names.depth? name = some depth) :
    ∃ outer rest, env.ancestor? depth = some outer ∧ outer.Nested done .code rest := by
  induction h generalizing depth with
  | global => cases hd
  | @inner p q outside names place list around opened hnames ih =>
    rw [ScopeNames.depth?_cons] at hd
    split at hd
    · next hmem =>
      cases hd
      cases q with
      | code => exact ⟨_, list :: names, rfl, .inner around opened trivial⟩
      | receiver object =>
        obtain rfl : list = ["this"] := hnames
        exact absurd (List.mem_singleton.1 hmem) hname.1
      | superclass c =>
        obtain rfl : list = ["super"] := hnames
        exact absurd (List.mem_singleton.1 hmem) hname.2
    · obtain ⟨d, hdepth, rfl⟩ := Option.map_eq_some_iff.1 hd
      exact ih hdepth

end Environment.Nested

/-- All scopes of the environment have their place in a store of this size. -/
def Environment.Within (env : Environment) (size : Nat) : Prop := ∀ scope ∈ env.chain, scope < size

namespace Environment.Within

variable {env : Environment} {size larger : Nat}

theorem mono (h : env.Within size) (hle : size ≤ larger) : env.Within larger :=
  fun scope hscope => Nat.lt_of_lt_of_le (h scope hscope) hle

theorem scope_lt (h : env.Within size) : env.scope < size := h env.scope (.head _)

/-- A new scope comes last in the store. -/
theorem inner (h : env.Within size) : (env.inner size).Within (size + 1) := by
  intro scope hscope
  rcases List.mem_cons.1 hscope with rfl | hscope
  · exact Nat.lt_succ_self _
  · exact Nat.lt_succ_of_lt (h scope hscope)

end Environment.Within

/-! ### Values -/

section Values

variable (done) (depths)

/-- The function is a method that a task has bound to an instance. -/
def Function.Captured (f : Function) : Prop :=
  ∃ c m method object, done c ∧ c.Binds m method object ∧
    f = ⟨m.nextIdentity, method.declaration, method.closure.inner m.store.size,
      method.isInitializer⟩

/-- The function was declared or bound, its environment is there, and its code is where resolution
has seen it. -/
structure Function.Nested (m : Machine) (f : Function) : Prop where
  origin : f.Declared done ∨ f.Captured done
  within : f.closure.Within m.store.size
  placed : ∃ p names, f.closure.Nested done p names ∧ Stmt.PlacedFunction depths names f.declaration

/-- The method waits for the scope of `this`, and then its code is where resolution has seen it. -/
structure Function.Waits (m : Machine) (f : Function) : Prop where
  within : f.closure.Within m.store.size
  placed : ∃ p names, f.closure.Nested done p names ∧
    Stmt.PlacedFunction depths (["this"] :: names) f.declaration

def Value.Nested (m : Machine) (value : Value) : Prop :=
  value.Every (Function.Nested done depths m) (Function.Waits done depths m)

/-- No depth is recorded but the final ones, all values have nested environments, and the scopes of
`this` and `super` are as they were made. -/
structure Machine.Nested (m : Machine) : Prop where
  recorded : ∀ (id : NodeId) (depth : Nat), m.depths[id]? = some depth → depths id = some depth
  store : ∀ scope name value, m.store.get? scope name = some value → value.Nested done depths m
  fields : ∀ object name value, m.fields.get? object name = some value → value.Nested done depths m
  hostFunctions : ∀ f ∈ m.hostFunctions, HostFunction.Passive f
  settled : ∀ o, Opened done o → o.place < m.store.size → ∀ bindings,
    o.purpose.bindings? = some bindings → m.store.scope o.place = bindings

/-- The tasks include what they start, their code is what can be read, and they have opened no place
twice. -/
structure Charted : Prop extends Begun done where
  unique : ∀ {o o'}, Opened done o → Opened done o' → o.place = o'.place → o = o'

end Values

theorem Value.IsPlain.nested {value : Value} (h : value.IsPlain) : value.Nested done depths m := by
  cases value with
  | function _ | ofClass _ | ofInstance _ => exact h.elim
  | _ => trivial

theorem Value.Nested.mono {value : Value} (h : value.Nested done depths m)
    (hle : m.store.size ≤ after.store.size) : value.Nested done depths after := by
  refine Value.Every.mono (fun f hf => ?_) (fun f hf => ?_) h
  · exact { hf with within := hf.within.mono hle }
  · exact { hf with within := hf.within.mono hle }

/-- The methods of a class and of those above it have a property if it holds in all their tables. -/
theorem Class.every_iff {P : Function → Prop} {c : Class} :
    c.Every P ↔ ∀ b ∈ c.chain, b.methods.Every P := by
  match c with
  | ⟨_, _, none, _⟩ => simp [Class.Every, Class.chain]
  | ⟨_, _, some superclass, _⟩ => simp [Class.Every, Class.chain, every_iff (c := superclass)]

/-! ### Scopes for code -/

section Places

variable {o : Opening} {p q : Purpose} {env : Environment} {names : ScopeNames} {scope : ScopeId}

/-- The global scope is not opened by a task. -/
theorem Begun.place_pos (H : Begun done) (ho : Opened done o) : 0 < o.place := by
  obtain ⟨c, hc, hopens⟩ := ho
  have hunder := H.under c hc
  exact Nat.lt_of_lt_of_le hunder.machine.global (hopens.size_le hunder)

/-- No task has opened the scope for `this` or `super`. -/
def Writable (done : Configuration → Prop) (scope : ScopeId) : Prop :=
  ∀ o, Opened done o → o.place = scope → o.purpose = .code

theorem Begun.writable_global (H : Begun done) : Writable done 0 := by
  intro o ho hplace
  exact absurd hplace (Nat.ne_of_gt (H.place_pos ho))

theorem Environment.Nested.writable (H : Charted done) (h : env.Nested done .code names) :
    Writable done env.scope := by
  cases h with
  | global => exact H.writable_global
  | inner _ opened _ =>
    intro o ho hplace
    rw [H.unique ho opened hplace]

/-- An assignment writes where it may. -/
theorem Machine.Nested.writable_assignee (H : Charted done) (h : m.Nested done depths)
    (henv : m.environment.Nested done .code names) {target : Reference}
    (hname : OrdinaryName target.name.text)
    (hdepth : depths target.id = names.depth? target.name.text)
    (hscope : m.assignee? target.id target.name.text = some scope) : Writable done scope := by
  unfold Machine.assignee? at hscope
  split at hscope
  · next depth hrecorded =>
    have hd : names.depth? target.name.text = some depth :=
      hdepth.symm.trans (h.recorded _ _ hrecorded)
    obtain ⟨outer, rest, houter, hnested⟩ := henv.ancestor? hname hd
    rw [houter] at hscope
    cases hscope
    exact hnested.writable H
  · obtain rfl : scope = 0 := List.mem_singleton.1 (List.mem_of_find?_eq_some hscope)
    exact H.writable_global

end Places

/-! ### Steps of the machine -/

namespace Machine.Nested

/-- Values and scopes are as before, but for a few. -/
theorem grow (h : m.Nested done depths) (hle : m.store.size ≤ after.store.size)
    (hstore : ∀ scope name value, after.store.get? scope name = some value →
      value.Nested done depths m ∨ m.store.get? scope name = some value)
    (hfields : ∀ object name value, after.fields.get? object name = some value →
      value.Nested done depths m ∨ m.fields.get? object name = some value)
    (hd : ∀ (id : NodeId) (depth : Nat), after.depths[id]? = some depth → depths id = some depth)
    (hh : after.hostFunctions = m.hostFunctions)
    (hsettled : ∀ o, Opened done o → o.place < after.store.size → ∀ bindings,
      o.purpose.bindings? = some bindings → after.store.scope o.place = bindings) :
    after.Nested done depths where
  recorded := hd
  store scope name value hv :=
    ((hstore scope name value hv).elim id (h.store scope name value)).mono hle
  fields object name value hv :=
    ((hfields object name value hv).elim id (h.fields object name value)).mono hle
  hostFunctions := hh ▸ h.hostFunctions
  settled := hsettled

theorem of_eq (h : m.Nested done depths) (hs : after.store = m.store)
    (hf : after.fields = m.fields) (hd : after.depths = m.depths)
    (hh : after.hostFunctions = m.hostFunctions) : after.Nested done depths :=
  h.grow (Nat.le_of_eq (congrArg Store.size hs).symm) (fun _ _ _ hv => .inr (hs ▸ hv))
    (fun _ _ _ hv => .inr (hf ▸ hv)) (hd ▸ h.recorded) hh (hs ▸ h.settled)

theorem put (h : m.Nested done depths) {scope : ScopeId} (hscope : Writable done scope)
    (name : String) {value : Value} (hv : value.Nested done depths m) :
    { m with store := m.store.put scope name value }.Nested done depths := by
  have hsize : (m.store.put scope name value).size = m.store.size := Store.size_put ..
  refine h.grow (Nat.le_of_eq hsize.symm) (fun other key found hfound => ?_)
    (fun _ _ _ hf => .inr hf) h.recorded rfl ?_
  · rcases Store.get?_of_put hfound with rfl | hold
    · exact .inl hv
    · exact .inr hold
  · intro o ho hlt bindings hbindings
    have hne : o.place ≠ scope := by
      intro hplace
      rw [hscope o ho hplace] at hbindings
      cases hbindings
    rw [Store.scope_put_of_ne _ _ _ hne]
    exact h.settled o ho (Nat.lt_of_lt_of_eq hlt hsize) bindings hbindings

/-- A scope that a task opens has the bindings that it is to have. -/
theorem push (H : Charted done) (h : m.Nested done depths) {env : Environment} {q : Purpose}
    (hopened : Opened done ⟨m.store.size, env, q⟩) (bindings : Table Value)
    (hq : ∀ settled, q.bindings? = some settled → bindings = settled)
    (hb : ∀ name value, bindings.get? name = some value → value.Nested done depths m) :
    { m with store := m.store.push bindings }.Nested done depths := by
  have hsize : (m.store.push bindings).size = m.store.size + 1 := Store.size_push ..
  refine h.grow (Nat.le_of_lt (Store.size_lt_push ..)) (fun scope name value hv => ?_)
    (fun _ _ _ hf => .inr hf) h.recorded rfl ?_
  · exact (Store.get?_of_push hv).symm.imp_left (hb name value)
  · intro o ho hlt settled hsettled
    rcases Nat.lt_or_eq_of_le (Nat.lt_succ_iff.1 (Nat.lt_of_lt_of_eq hlt hsize)) with hlt | heq
    · rw [Store.scope_push_of_lt _ _ hlt]
      exact h.settled o ho hlt settled hsettled
    · obtain rfl := H.unique ho hopened heq
      rw [Store.scope_push_size]
      exact hq settled hsettled

/-- A scope for `this` or `super` binds the name that it is for. -/
theorem pushSettled (H : Charted done) (h : m.Nested done depths) {env : Environment} {q : Purpose}
    (hopened : Opened done ⟨m.store.size, env, q⟩) {name : String} {value : Value}
    (hq : q.bindings? = some (.ofList [(name, value)])) (hv : value.Nested done depths m) :
    { m with store := m.store.push (.ofList [(name, value)]) }.Nested done depths := by
  refine h.push H hopened _ (fun settled hsettled => ?_) fun key found hfound => ?_
  · exact Option.some.inj (hq.symm.trans hsettled)
  · rw [Table.get?_ofList_singleton] at hfound
    split at hfound
    · cases hfound
      exact hv
    · cases hfound

theorem instantiate (h : m.Nested done depths) :
    { m with fields := m.fields.push ∅ }.Nested done depths := by
  refine h.grow (Nat.le_refl _) (fun _ _ _ hv => .inr hv) (fun object name value hv => .inr ?_)
    h.recorded rfl h.settled
  exact (Store.get?_of_push hv).resolve_right nofun

theorem setField (h : m.Nested done depths) (object : Instance) (name : String) {value : Value}
    (hv : value.Nested done depths m) :
    { m with fields := m.fields.put object.id name value }.Nested done depths := by
  refine h.grow (Nat.le_refl _) (fun _ _ _ hv => .inr hv) (fun other key found hfound => ?_)
    h.recorded rfl h.settled
  rcases Store.get?_of_put hfound with rfl | hold
  · exact .inl hv
  · exact .inr hold

/-- A method that a task binds is a nested function. -/
theorem bindMethod (H : Charted done) (h : m.Nested done depths) {method f : Function}
    {object : Instance} (hc : done c) (hbinds : c.Binds m method object)
    (hmethod : method.Waits done depths m) (ho : Value.Nested done depths m (.ofInstance object))
    (hbind : Run.bind method object m = .ok f after) :
    after.Nested done depths ∧ m.store.size ≤ after.store.size ∧ f.Nested done depths after := by
  cases hbind
  have hopened : Opened done ⟨m.store.size, method.closure, .receiver object⟩ :=
    ⟨c, hc, .bound hbinds⟩
  have hpushed := h.pushSettled H hopened rfl ho
  obtain ⟨p, names, hnested, hplaced⟩ := hmethod.placed
  refine ⟨hpushed.of_eq rfl rfl rfl rfl, Nat.le_of_lt (Store.size_lt_push ..),
    .inr ⟨c, m, method, object, hc, hbinds, rfl⟩, ?_, _, _, .inner hnested hopened rfl, hplaced⟩
  exact hmethod.within.inner.mono (Nat.le_of_eq (Store.size_push ..).symm)

end Machine.Nested

end Lox
