import Lox.Proofs.Evaluation.Heap
import Lox.Proofs.Evaluation.Steps

/-!
# Steps that keep the heap sound

Each step that evaluation is made of keeps a sound machine sound, whatever its outcome. `Keeps.bind`
puts two parts of a run in a row together.
-/

namespace Lox

/-- Functions of the host make no functions of their own: what holds of all functions among the
arguments holds of those in the result. -/
def HostFunction.Passive (f : HostFunction) : Prop :=
  ∀ (P Q : Function → Prop) arguments value, (∀ argument ∈ arguments, argument.Every P Q) →
    f arguments = .ok value → value.Every P Q

section Soundness

variable (depths : Depths) (limit : NodeId)

/-- All values of the machine are sound, and these are the depths it has recorded. -/
structure Machine.Sound (m : Machine) : Prop where
  recorded : ∀ id, m.depths[id]? = depths id
  store : m.store.Sound depths limit m.store
  fields : m.fields.Sound depths limit m.store
  global : 0 < m.store.size
  hostFunctions : ∀ f ∈ m.hostFunctions, HostFunction.Passive f

/-- The machine is sound and its environment has the scopes with these names. -/
structure Machine.Ready (m : Machine) (names : ScopeNames) : Prop where
  sound : m.Sound depths limit
  environment : m.environment.Holds m.store names

/-- The machine `after` is sound, its environment is that of `m`, and its store extends that of `m`.
-/
structure Machine.Follows (m after : Machine) : Prop where
  sound : after.Sound depths limit
  store : m.store.Extends after.store
  environment : after.environment = m.environment

/-- However the run of `x` from `m` ends, the machine is sound after it; if it ends normally, the
result and the store have the property `P`. -/
def Run.Keeps {α : Type} (m : Machine) (x : Run α) (P : α → Store Value → Prop) : Prop :=
  match x m with
  | .ok a after => m.Follows depths limit after ∧ P a after.store
  | .error _ after => m.Follows depths limit after
  | .exhausted => True

end Soundness

variable {depths : Depths} {limit : NodeId} {m after : Machine} {names : ScopeNames}

namespace Machine

theorem Follows.refl (h : m.Sound depths limit) : m.Follows depths limit m :=
  ⟨h, .refl _, rfl⟩

theorem Follows.trans {later : Machine} (h : m.Follows depths limit after)
    (k : after.Follows depths limit later) : m.Follows depths limit later :=
  ⟨k.sound, h.store.trans k.store, k.environment.trans h.environment⟩

theorem Ready.follows (h : m.Ready depths limit names) (hm : m.Follows depths limit after) :
    after.Ready depths limit names :=
  ⟨hm.sound, hm.environment ▸ h.environment.mono hm.store⟩

/-- Soundness does not look at the environment, at the calls under way or at the output. -/
theorem Sound.of_eq (h : m.Sound depths limit) (hdepths : after.depths = m.depths)
    (hstore : after.store = m.store) (hfields : after.fields = m.fields)
    (hhost : after.hostFunctions = m.hostFunctions) : after.Sound depths limit :=
  ⟨hdepths ▸ h.recorded, hstore ▸ h.store, hstore ▸ hfields ▸ h.fields, hstore ▸ h.global,
    hhost ▸ h.hostFunctions⟩

/-- A store that extends the one before, with nothing but sound values. -/
theorem Sound.withStore (h : m.Sound depths limit) {store : Store Value}
    (hext : m.store.Extends store) (hs : store.Sound depths limit store) :
    { m with store := store }.Sound depths limit :=
  ⟨h.recorded, hs, h.fields.mono hext, Nat.lt_of_lt_of_le h.global hext.size, h.hostFunctions⟩

theorem Sound.put (h : m.Sound depths limit) {scope : ScopeId} {name : String} {value : Value}
    (hs : scope < m.store.size) (hname : OrdinaryName name)
    (hv : value.Sound depths limit (m.store.put scope name value)) :
    m.Follows depths limit { m with store := m.store.put scope name value } := by
  have hext : m.store.Extends (m.store.put scope name value) := .put value hs hname
  exact ⟨h.withStore hext ((h.store.mono hext).put hv), hext, rfl⟩

theorem Sound.push (h : m.Sound depths limit) {bindings : Table Value}
    (hb : ∀ name value, bindings.get? name = some value → value.Sound depths limit m.store) :
    m.Follows depths limit { m with store := m.store.push bindings } := by
  have hext : m.store.Extends (m.store.push bindings) := .push m.store bindings
  exact ⟨h.withStore hext ((h.store.push hb).mono hext), hext, rfl⟩

end Machine

theorem Machine.global?_eq (m : Machine) (name : String) :
    m.global? name = m.store.get? 0 name := by
  cases h : m.store.get? 0 name <;>
    simp [Machine.global?, Environment.get?, Environment.global, Environment.chain, h]

namespace Run.Keeps

open Procedure

variable {α β : Type} {x : Run α} {f : α → Run β} {P : α → Store Value → Prop}
  {Q : β → Store Value → Prop}

theorem mono {P' : α → Store Value → Prop} (h : Keeps depths limit m x P)
    (hPP' : ∀ a store, P a store → P' a store) : Keeps depths limit m x P' := by
  unfold Keeps at *
  split
  · next ho =>
    rw [ho] at h
    exact ⟨h.1, hPP' _ _ h.2⟩
  · next ho =>
    rw [ho] at h
    exact h
  · trivial

/-- Two parts of a run in a row. -/
theorem bind (hx : Keeps depths limit m x P)
    (hf : ∀ a after, m.Follows depths limit after → P a after.store →
      Keeps depths limit after (f a) Q) : Keeps depths limit m (x >>= f) Q := by
  unfold Keeps at *
  rw [bind_apply]
  cases ho : x m with
  | exhausted => trivial
  | error e after =>
    rw [ho] at hx
    exact hx
  | ok a after =>
    rw [ho] at hx
    have hnext := hf a after hx.1 hx.2
    simp only
    cases hb : f a after with
    | exhausted => trivial
    | error e later =>
      rw [hb] at hnext
      exact hx.1.trans hnext
    | ok b later =>
      rw [hb] at hnext
      exact ⟨hx.1.trans hnext.1, hnext.2⟩

theorem pure {a : α} (h : m.Sound depths limit) (ha : P a m.store) :
    Keeps depths limit m (Pure.pure a) P := ⟨.refl h, ha⟩

theorem raise (h : m.Sound depths limit) (fault : RuntimeFault) (line : Nat) :
    Keeps depths limit m (Run.raise fault line : Run α) P := .refl h

theorem located (h : m.Sound depths limit) {line : Nat} {result : Except RuntimeFault α}
    (hr : ∀ a, result = .ok a → P a m.store) : Keeps depths limit m (Run.located line result) P := by
  cases result with
  | ok a => exact pure h (hr a rfl)
  | error fault => exact raise h fault line

/-- A part of the machine is read. -/
theorem read {g : Machine → α} (h : m.Sound depths limit) (hg : P (g m) m.store) :
    Keeps depths limit m (Procedure.read g) P := ⟨.refl h, hg⟩

theorem update {g : Machine → Machine} {P : Unit → Store Value → Prop}
    (h : m.Follows depths limit (g m)) (hP : P () (g m).store) :
    Keeps depths limit m (Procedure.update g) P := ⟨h, hP⟩

/-- The run of `x` from `start`, with `g` after it, counts as a run from `m`. -/
theorem of_afterwards {start : Machine} {g : Machine → Machine} {y : Run α}
    (hy : y m = afterwards g x start) (h : Keeps depths limit start x P)
    (hg : ∀ after, start.Follows depths limit after → m.Follows depths limit (g after))
    (hstore : ∀ after, (g after).store = after.store) : Keeps depths limit m y P := by
  unfold Keeps at *
  rw [hy, afterwards]
  cases ho : x start with
  | exhausted => trivial
  | error e after =>
    rw [ho] at h
    exact hg after h
  | ok a after =>
    rw [ho] at h
    refine ⟨hg after h.1, ?_⟩
    rw [hstore]
    exact h.2

/-- The environment of a part of the run is given up after it. -/
theorem inEnvironment {env : Environment}
    (h : Keeps depths limit { m with environment := env } x P) :
    Keeps depths limit m (Run.inEnvironment env x) P :=
  of_afterwards (inEnvironment_apply env x m) h
    (fun _ hm => ⟨hm.sound.of_eq rfl rfl rfl rfl, hm.store, rfl⟩) fun _ => rfl

/-- A call under way is counted until it ends. -/
theorem asCall {line : Nat} (hm : m.Sound depths limit)
    (h : Keeps depths limit { m with callDepth := m.callDepth + 1 } x P) :
    Keeps depths limit m (Run.asCall line x) P := by
  by_cases hfull : m.maxCallDepth ≤ m.callDepth
  · unfold Keeps
    rw [asCall_apply, if_pos hfull]
    exact .refl hm
  · exact of_afterwards ((asCall_apply line x m).trans (if_neg hfull)) h
      (fun _ hm => ⟨hm.sound.of_eq rfl rfl rfl rfl, hm.store, hm.environment⟩) fun _ => rfl

/-! ### Variables -/

theorem sound_of_getAt? {env : Environment} {depth : Nat} {name : String} {value : Value}
    (h : m.Sound depths limit) (hv : env.getAt? m.store depth name = some value) :
    value.Sound depths limit m.store := by
  obtain ⟨outer, -, hvalue⟩ := Option.bind_eq_some_iff.1 hv
  exact h.store outer.scope name value hvalue

theorem sound_of_valueOf? {id : NodeId} {name : String} {value : Value} (h : m.Sound depths limit)
    (hv : m.valueOf? id name = some value) : value.Sound depths limit m.store := by
  unfold Machine.valueOf? at hv
  split at hv
  · exact sound_of_getAt? h hv
  · rw [Machine.global?_eq] at hv
    exact h.store 0 name value hv

theorem valueOf (h : m.Sound depths limit) (id : NodeId) (name : String) (line : Nat) :
    Keeps depths limit m (Run.valueOf id name line) fun value store =>
      value.Sound depths limit store := by
  unfold Keeps
  rw [valueOf_apply]
  cases hv : m.valueOf? id name with
  | none => exact .refl h
  | some value => exact ⟨.refl h, sound_of_valueOf? h hv⟩

/-- The value may be a function that needs its own name. -/
theorem define_recursive (h : m.Ready depths limit names) {name : String} {v : Value}
    (hname : OrdinaryName name)
    (hv : m.environment.Holds (m.environment.define m.store name v) (names.declare name) →
      v.Sound depths limit (m.environment.define m.store name v)) :
    Keeps depths limit m (Run.define name v) fun _ store =>
      m.environment.Holds store (names.declare name) := by
  have hholds := h.environment.define hname v
  exact update (h.sound.put h.environment.scope_lt hname (hv hholds)) hholds

theorem define (h : m.Ready depths limit names) {name : String} {v : Value}
    (hname : OrdinaryName name) (hv : v.Sound depths limit m.store) :
    Keeps depths limit m (Run.define name v) fun _ store =>
      m.environment.Holds store (names.declare name) :=
  define_recursive h hname fun _ => hv.mono (.put v h.environment.scope_lt hname)

/-- The scope that an assignment writes binds the name already. -/
theorem binds_assignee (h : m.Ready depths limit names) {id : NodeId} {name : String}
    {scope : ScopeId} (hd : depths id = names.depth? name) (hs : m.assignee? id name = some scope) :
    ∃ value, m.store.get? scope name = some value := by
  unfold Machine.assignee? at hs
  rw [h.sound.recorded, hd] at hs
  cases hdepth : names.depth? name with
  | none =>
    simp only [hdepth] at hs
    have hbinds := List.find?_some hs
    exact Option.isSome_iff_exists.1 hbinds
  | some depth =>
    simp only [hdepth] at hs
    obtain ⟨outer, value, hancestor, hvalue, -⟩ := h.environment.ancestor? hdepth
    rw [hancestor] at hs
    cases hs
    exact ⟨value, hvalue⟩

theorem assign (h : m.Ready depths limit names) {target : Reference} {value : Value}
    (hname : OrdinaryName target.name.text)
    (hd : depths target.id = names.depth? target.name.text)
    (hv : value.Sound depths limit m.store) :
    Keeps depths limit m (Run.assign target value) fun _ _ => True := by
  unfold Keeps
  rw [assign_apply]
  cases hs : m.assignee? target.id target.name.text with
  | none => exact .refl h.sound
  | some scope =>
    obtain ⟨old, hold⟩ := binds_assignee h hd hs
    have hlt := Store.Extends.get?_lt hold
    exact ⟨h.sound.put hlt hname (hv.mono (.put value hlt hname)), trivial⟩

/-! ### Scopes, functions and instances -/

theorem newScope (h : m.Sound depths limit) {env : Environment} (he : env.Holds m.store names)
    {bindings : Table Value} {l : List String}
    (hb : ∀ name value, bindings.get? name = some value → value.Sound depths limit m.store)
    (hl : ∀ name ∈ l, ∃ value, bindings.get? name = some value ∧ Suits name value) :
    Keeps depths limit m (Run.newScope env bindings) fun frame store =>
      frame.Holds store (l :: names) := by
  have hm := h.push hb
  have hbinds : (m.store.push bindings).Binds m.store.size l := by
    refine ⟨by rw [Store.size_push]; exact Nat.lt_succ_self _, fun name hname => ?_⟩
    rw [Store.get?_push_size]
    exact hl name hname
  exact ⟨hm, (he.mono hm.store).inner hbinds⟩

theorem freshIdentity (h : m.Sound depths limit) (count : Nat) :
    Keeps depths limit m (Run.freshIdentity count) fun _ store => store = m.store :=
  ⟨⟨h.of_eq rfl rfl rfl rfl, .refl _, rfl⟩, rfl⟩

/-- A method becomes callable when it is bound. -/
theorem bindMethod (h : m.Sound depths limit) {method : Function} {object : Instance}
    (hf : method.Bindable depths limit m.store)
    (ho : object.ofClass.Every (Function.Bindable depths limit m.store)) :
    Keeps depths limit m (Run.bind method object) fun f store =>
      f.Callable depths limit store ∧ f.declaration = method.declaration := by
  obtain ⟨names, hholds, hcoded⟩ := hf
  unfold Run.bind
  refine bind (newScope (l := ["this"]) h hholds ?_ ?_) fun closure after hm hclosure => ?_
  · intro name value hv
    rw [Table.get?_ofList_singleton] at hv
    split at hv
    · cases hv
      exact ho
    · cases hv
  · intro name hname
    obtain rfl := List.mem_singleton.1 hname
    refine ⟨.ofInstance object, ?_, fun _ => ⟨object, rfl⟩, fun he => absurd he (by decide)⟩
    rw [Table.get?_ofList_singleton, if_pos rfl]
  · refine bind (freshIdentity hm.sound 1) fun id later hl _ => pure hl.sound ?_
    exact ⟨⟨["this"] :: names, hclosure.mono hl.store, hcoded, fun _ => ⟨names, rfl⟩⟩, rfl⟩

theorem instantiate (h : m.Sound depths limit) {c : Class}
    (hc : c.Every (Function.Bindable depths limit m.store)) :
    Keeps depths limit m (Run.instantiate c) fun object store =>
      object.ofClass.Every (Function.Bindable depths limit store) := by
  refine ⟨⟨⟨h.recorded, h.store, ?_, h.global, h.hostFunctions⟩, .refl _, rfl⟩, hc⟩
  exact h.fields.push nofun

theorem property (h : m.Sound depths limit) {object : Instance} (name : Identifier)
    (ho : object.ofClass.Every (Function.Bindable depths limit m.store)) :
    Keeps depths limit m (Run.property object name) fun value store =>
      value.Sound depths limit store := by
  unfold Run.property
  refine bind (read (P := fun field? store => ∀ value, field? = some value →
    value.Sound depths limit store) h fun value hv => h.fields _ _ value hv)
      fun field? after hm hfield => ?_
  have ho : object.ofClass.Every (Function.Bindable depths limit after.store) :=
    Class.Every.mono (fun _ hf => hf.mono hm.store) _ ho
  cases field? with
  | some value => exact pure hm.sound (hfield value rfl)
  | none =>
    cases hmethod : object.ofClass.findMethod? name.text with
    | none => exact raise hm.sound _ _
    | some method =>
      refine bind (bindMethod hm.sound (Class.Every.findMethod? _ ho hmethod) ho)
        fun f later hl hf => pure hl.sound hf.1

theorem setField (h : m.Sound depths limit) (object : Instance) (name : String) {value : Value}
    (hv : value.Sound depths limit m.store) :
    Keeps depths limit m (Run.setField object name value) fun _ _ => True :=
  update ⟨⟨h.recorded, h.store, h.fields.put hv, h.global, h.hostFunctions⟩, .refl _, rfl⟩ trivial

theorem getAt? (h : m.Sound depths limit) (depth : Nat) (name : String) :
    Keeps depths limit m (Procedure.read fun m => m.environment.getAt? m.store depth name)
      fun value? store => ∀ value, value? = some value → value.Sound depths limit store :=
  read h fun _ hv => sound_of_getAt? h hv

theorem superMethod (h : m.Sound depths limit) (id : NodeId) (line : Nat) (method : Identifier) :
    Keeps depths limit m (Run.superMethod id line method) fun value store =>
      value.Sound depths limit store := by
  unfold Run.superMethod
  refine bind (read (P := fun _ _ => True) h trivial) fun depth? m₁ h₁ _ => ?_
  cases depth? with
  | none => exact raise h₁.sound _ _
  | some depth =>
    refine bind (getAt? h₁.sound depth "super") fun superclass? m₂ h₂ hsuper => ?_
    cases superclass? with
    | none => exact raise h₂.sound _ _
    | some superclass =>
      refine bind (getAt? h₂.sound (depth - 1) "this") fun object? m₃ h₃ hthis => ?_
      cases object? with
      | none => exact raise h₃.sound _ _
      | some object =>
        have hc := (hsuper superclass rfl).mono h₃.store
        have ho := hthis object rfl
        cases superclass with
        | ofClass c =>
          cases object with
          | ofInstance object =>
            cases hfound : c.findMethod? method.text with
            | none =>
              simp only [hfound]
              exact raise h₃.sound _ _
            | some found =>
              simp only [hfound]
              exact bind (bindMethod h₃.sound (Class.Every.findMethod? c hc hfound) ho)
                fun f m₄ h₄ hf => pure h₄.sound hf.1
          | _ => exact raise h₃.sound _ _
        | _ => exact raise h₃.sound _ _

theorem write (h : m.Sound depths limit) (text : String) (line : Nat) :
    Keeps depths limit m (Run.write text line) fun _ _ => True := by
  unfold Keeps Run.write
  split
  · next ho =>
    split at ho <;> cases ho
    exact ⟨⟨h.of_eq rfl rfl rfl rfl, .refl _, rfl⟩, trivial⟩
  · next ho =>
    split at ho <;> cases ho
    exact ⟨h.of_eq rfl rfl rfl rfl, .refl _, rfl⟩
  · trivial

theorem callHost (h : m.Sound depths limit) (f : Native) {arguments : List Value} (line : Nat)
    (ha : ∀ argument ∈ arguments, argument.Sound depths limit m.store) :
    Keeps depths limit m (Run.callHost f arguments line) fun value store =>
      value.Sound depths limit store := by
  unfold Run.callHost
  refine bind (read (P := fun host? store => store = m.store ∧ ∀ host, host? = some host →
    HostFunction.Passive host) h ⟨rfl, fun host hhost => ?_⟩) fun host? after hm hhost => ?_
  · exact h.hostFunctions host (Array.mem_of_getElem? hhost)
  · obtain ⟨hstore, hhost⟩ := hhost
    cases host? with
    | none => exact pure hm.sound trivial
    | some host =>
      cases hcall : host arguments with
      | error message =>
        simp only [hcall]
        exact raise hm.sound _ _
      | ok value =>
        simp only [hcall]
        exact pure hm.sound (hstore ▸ hhost host rfl _ _ arguments value ha hcall)

end Run.Keeps

end Lox
