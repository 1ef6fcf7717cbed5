import Lox.Proofs.Evaluation.Roots

/-!
# Evaluation gives values with roots

All values that a run comes to have come of tasks that were begun before: every task gives a value of
this kind, if it finds only such values. The induction is on the bound; a step of it goes through the
parts of a task in their order.
-/

namespace Lox

open Procedure

/-- However the run of `x` from `m` ends, the machine has grown and all its values have roots; if it ends
normally, the result and the machine have the property `P`. -/
def Run.Roots {α : Type} (done : Configuration → Prop) (m : Machine) (x : Run α)
    (P : α → Machine → Prop) : Prop :=
  match x m with
  | .ok a after => (m.Grows after ∧ after.Rooted done) ∧ P a after
  | .error _ after => m.Grows after ∧ after.Rooted done
  | .exhausted => True

variable {done : Configuration → Prop} {m after : Machine}

namespace Run.Roots

variable {α β : Type} {x : Run α} {f : α → Run β} {P : α → Machine → Prop} {Q : β → Machine → Prop}

theorem of_ok {a : α} (h : Roots done m x P) (ho : x m = .ok a after) :
    m.Grows after ∧ after.Rooted done ∧ P a after := by
  unfold Roots at h
  rw [ho] at h
  exact ⟨h.1.1, h.1.2, h.2⟩

/-- Whatever state is left behind. -/
theorem of_state (h : Roots done m x P) (ho : (x m).state? = some after) : after.Rooted done := by
  unfold Roots at h
  cases hx : x m with
  | ok a later =>
    rw [hx] at h ho
    cases ho
    exact h.1.2
  | error e later =>
    rw [hx] at h ho
    cases ho
    exact h.2
  | exhausted =>
    rw [hx] at ho
    cases ho

/-- Two parts of a run in a row. -/
theorem bind (hx : Roots done m x P)
    (hf : ∀ a after, x m = .ok a after → m.Grows after → after.Rooted done → P a after →
      Roots done after (f a) Q) : Roots done m (x >>= f) Q := by
  unfold Roots at *
  rw [bind_apply]
  cases ho : x m with
  | exhausted => trivial
  | error e after =>
    rw [ho] at hx
    exact hx
  | ok a after =>
    rw [ho] at hx
    have hnext := hf a after ho hx.1.1 hx.1.2 hx.2
    simp only
    cases hb : f a after with
    | exhausted => trivial
    | error e later =>
      rw [hb] at hnext
      exact ⟨hx.1.1.trans hnext.1, hnext.2⟩
    | ok b later =>
      rw [hb] at hnext
      exact ⟨⟨hx.1.1.trans hnext.1.1, hnext.1.2⟩, hnext.2⟩

theorem pure {a : α} (h : m.Rooted done) (ha : P a m) : Roots done m (Pure.pure a) P :=
  ⟨⟨.refl m, h⟩, ha⟩

theorem raise (h : m.Rooted done) (fault : RuntimeFault) (line : Nat) :
    Roots done m (Run.raise fault line : Run α) P := ⟨.refl m, h⟩

theorem located (h : m.Rooted done) {line : Nat} {result : Except RuntimeFault α}
    (hr : ∀ a, result = .ok a → P a m) : Roots done m (Run.located line result) P := by
  cases result with
  | ok a => exact pure h (hr a rfl)
  | error fault => exact raise h fault line

/-- A part of the machine is read. -/
theorem read {g : Machine → α} (h : m.Rooted done) (hg : P (g m) m) :
    Roots done m (Procedure.read g) P := ⟨⟨.refl m, h⟩, hg⟩

theorem update {g : Machine → Machine} {P : Unit → Machine → Prop} (hg : m.Grows (g m))
    (h : (g m).Rooted done) (hP : P () (g m)) : Roots done m (Procedure.update g) P :=
  ⟨⟨hg, h⟩, hP⟩

/-- The run of `x` from `start`, with `g` after it, counts as a run from `m`, if the second change leaves
all alone that grows and values depend on. -/
theorem of_afterwards {start : Machine} {g : Machine → Machine} {y : Run α}
    (hy : y m = afterwards g x start) (h : Roots done start x P) (hstart : m.Grows start)
    (hg : ∀ later : Machine, later.Rooted done → later.Grows (g later) ∧ (g later).Rooted done)
    (hP : ∀ a later, later.Grows (g later) → P a later → P a (g later)) : Roots done m y P := by
  unfold Roots at *
  rw [hy, afterwards]
  cases ho : x start with
  | exhausted => trivial
  | error e later =>
    rw [ho] at h
    exact ⟨(hstart.trans h.1).trans (hg later h.2).1, (hg later h.2).2⟩
  | ok a later =>
    rw [ho] at h
    have hlater := hg later h.1.2
    exact ⟨⟨(hstart.trans h.1.1).trans hlater.1, hlater.2⟩, hP a later hlater.1 h.2⟩

theorem inEnvironment {env : Environment} (h : Roots done { m with environment := env } x P)
    (hP : ∀ a s t, Machine.Grows s t → P a s → P a t) :
    Roots done m (Run.inEnvironment env x) P :=
  of_afterwards (inEnvironment_apply env x m) h (.of_eq rfl rfl rfl rfl)
    (fun _ hlater => ⟨.of_eq rfl rfl rfl rfl, hlater.of_eq rfl rfl rfl rfl rfl⟩)
    fun a _ hg ha => hP a _ _ hg ha

theorem asCall {line : Nat} (hm : m.Rooted done)
    (h : m.callDepth < m.maxCallDepth →
      Roots done { m with callDepth := m.callDepth + 1 } x P)
    (hP : ∀ a s t, Machine.Grows s t → P a s → P a t) : Roots done m (Run.asCall line x) P := by
  by_cases hfull : m.maxCallDepth ≤ m.callDepth
  · unfold Roots
    rw [asCall_apply, if_pos hfull]
    exact ⟨.refl m, hm⟩
  · exact of_afterwards ((asCall_apply line x m).trans (if_neg hfull)) (h (Nat.lt_of_not_le hfull))
      (.of_eq rfl rfl rfl rfl)
      (fun _ hlater => ⟨.of_eq rfl rfl rfl rfl, hlater.of_eq rfl rfl rfl rfl rfl⟩)
      fun a _ hg ha => hP a _ _ hg ha

/-! ### Variables -/

theorem rooted_of_getAt? {env : Environment} {depth : Nat} {name : String} {value : Value}
    (h : m.Rooted done) (hv : env.getAt? m.store depth name = some value) : value.Rooted done m := by
  obtain ⟨outer, -, hvalue⟩ := Option.bind_eq_some_iff.1 hv
  exact h.store outer.scope name value hvalue

theorem rooted_of_valueOf? {id : NodeId} {name : String} {value : Value} (h : m.Rooted done)
    (hv : m.valueOf? id name = some value) : value.Rooted done m := by
  unfold Machine.valueOf? at hv
  split at hv
  · exact rooted_of_getAt? h hv
  · rw [Machine.global?_eq] at hv
    exact h.store 0 name value hv

theorem valueOf (h : m.Rooted done) (id : NodeId) (name : String) (line : Nat) :
    Roots done m (Run.valueOf id name line) fun value after => value.Rooted done after := by
  unfold Roots
  rw [valueOf_apply]
  cases hv : m.valueOf? id name with
  | none => exact ⟨.refl m, h⟩
  | some value => exact ⟨⟨.refl m, h⟩, rooted_of_valueOf? h hv⟩

theorem define (h : m.Rooted done) {name : String} {v : Value} (hname : OrdinaryName name)
    (hv : v.Rooted done m) : Roots done m (Run.define name v) fun _ _ => True :=
  update (.put m m.environment.scope v hname) (h.put m.environment.scope hname hv) trivial

theorem assign (h : m.Rooted done) {target : Reference} {value : Value}
    (hname : OrdinaryName target.name.text) (hv : value.Rooted done m) :
    Roots done m (Run.assign target value) fun _ after => value.Rooted done after := by
  unfold Roots
  rw [assign_apply]
  cases m.assignee? target.id target.name.text with
  | none => exact ⟨.refl m, h⟩
  | some scope =>
    have hg : m.Grows _ := .put m scope value hname
    exact ⟨⟨hg, h.put scope hname hv⟩, hv.mono hg⟩

/-! ### Instances and calls -/

theorem instantiate (h : m.Rooted done) {c : Class} (hc : c.Rooted done m) :
    Roots done m (Run.instantiate c) fun object after => object.Rooted done after := by
  have hg := Machine.Grows.instantiate m
  refine ⟨⟨hg, h.instantiate⟩, ?_, hc.mono hg⟩
  show m.fields.size < (m.fields.push ∅).size
  rw [Store.size_push]
  exact Nat.lt_succ_self _

/-- A method that was looked for, bound to an instance. -/
theorem boundMethod (h : m.Rooted done) {c : Class} (hc : c.Rooted done m) {object : Instance}
    (ho : object.Rooted done m) (name : Identifier) :
    Roots done m (match c.findMethod? name.text with
      | some method => do return .function (← Run.bind method object)
      | none => Run.raise (.undefinedProperty name.text) name.line : Run Value)
      fun value after => value.Rooted done after := by
  cases hfound : c.findMethod? name.text with
  | none => exact raise h _ _
  | some method =>
    obtain ⟨hg, hafter, hf, -⟩ := h.bindMethod hc hfound ho rfl
    exact ⟨⟨hg, hafter⟩, hf⟩

theorem property (h : m.Rooted done) {object : Instance} (ho : object.Rooted done m)
    (name : Identifier) :
    Roots done m (Run.property object name) fun value after => value.Rooted done after := by
  unfold Run.property
  refine bind (read (P := fun field? later => ∀ value, field? = some value →
    value.Rooted done later) h fun value hv => h.fields _ _ value hv)
    fun field? after _ hg hm hfield => ?_
  cases field? with
  | some value => exact pure hm (hfield value rfl)
  | none => exact boundMethod hm (ho.ofClass.mono hg) (ho.mono hg) name

theorem setField (h : m.Rooted done) (object : Instance) (name : String) {value : Value}
    (hv : value.Rooted done m) :
    Roots done m (Run.setField object name value) fun _ after => value.Rooted done after :=
  have hg := Machine.Grows.setField m object name value
  update hg (h.setField object name hv) (hv.mono hg)

theorem getAt? (h : m.Rooted done) (depth : Nat) (name : String) :
    Roots done m (Procedure.read fun m => m.environment.getAt? m.store depth name)
      fun value? after => ∀ value, value? = some value → value.Rooted done after :=
  read h fun _ hv => rooted_of_getAt? h hv

theorem superMethod (h : m.Rooted done) (id : NodeId) (line : Nat) (method : Identifier) :
    Roots done m (Run.superMethod id line method) fun value after => value.Rooted done after := by
  unfold Run.superMethod
  refine bind (read (P := fun _ _ => True) h trivial) fun depth? m₁ _ _ h₁ _ => ?_
  cases depth? with
  | none => exact raise h₁ _ _
  | some depth =>
    refine bind (getAt? h₁ depth "super") fun superclass? m₂ _ _ h₂ hsuper => ?_
    cases superclass? with
    | none => exact raise h₂ _ _
    | some superclass =>
      refine bind (getAt? h₂ (depth - 1) "this") fun object? m₃ _ hg h₃ hthis => ?_
      cases object? with
      | none => exact raise h₃ _ _
      | some object =>
        have hc := (hsuper superclass rfl).mono hg
        have ho := hthis object rfl
        cases superclass with
        | ofClass c =>
          cases object with
          | ofInstance object => exact boundMethod h₃ hc ho method
          | _ => exact raise h₃ _ _
        | _ => exact raise h₃ _ _

theorem write (h : m.Rooted done) (text : String) (line : Nat) :
    Roots done m (Run.write text line) fun _ _ => True := by
  unfold Roots Run.write
  split
  · next ho =>
    split at ho <;> cases ho
    exact ⟨⟨.of_eq rfl rfl rfl rfl, h.of_eq rfl rfl rfl rfl rfl⟩, trivial⟩
  · next ho =>
    split at ho <;> cases ho
    exact ⟨.of_eq rfl rfl rfl rfl, h.of_eq rfl rfl rfl rfl rfl⟩
  · trivial

theorem callHost (h : m.Rooted done) (f : Native) {arguments : List Value} (line : Nat)
    (ha : ∀ argument ∈ arguments, argument.Rooted done m) :
    Roots done m (Run.callHost f arguments line) fun value after => value.Rooted done after := by
  unfold Run.callHost
  refine bind (read (P := fun host? later => later = m ∧ ∀ host, host? = some host →
    HostFunction.Inert host) h ⟨rfl, fun host hhost => ?_⟩) fun host? after _ _ hm hhost => ?_
  · exact h.hostFunctions host (Array.mem_of_getElem? hhost)
  · obtain ⟨rfl, hhost⟩ := hhost
    cases host? with
    | none => exact pure hm trivial
    | some host =>
      cases hcall : host arguments with
      | error message =>
        simp only [hcall]
        exact raise hm _ _
      | ok value =>
        simp only [hcall]
        refine pure hm ?_
        exact (hhost host rfl arguments value hcall).elim Value.IsPlain.rooted (ha value)

theorem callResult (h : m.Rooted done) (f : Function) (line : Nat) {completion : Completion}
    (hc : completion.Rooted done m) :
    Roots done m (Run.callResult f line completion) fun value after => value.Rooted done after := by
  unfold Run.callResult
  split
  · refine bind (read (P := fun object? later => ∀ object, object? = some object →
      object.Rooted done later) h fun object hobject => rooted_of_getAt? h hobject)
      fun object? after _ _ hm hobject => ?_
    cases object? with
    | some object => exact pure hm (hobject object rfl)
    | none => exact raise hm _ _
  · cases completion with
    | returned value => exact pure h hc
    | normal => exact pure h trivial

end Run.Roots

/-! ### Class declarations -/

theorem Run.superclass?_ok {target : Option Reference} {superclass : Option Class}
    (h : superclass? target m = .ok superclass after) : after = m := by
  cases target with
  | none =>
    cases h
    rfl
  | some target =>
    rw [superclass?, bind_apply, valueOf_apply] at h
    cases hv : m.valueOf? target.id target.name.text with
    | none =>
      rw [hv] at h
      cases h
    | some value =>
      rw [hv] at h
      cases value <;> cases h
      rfl

/-- The store with the scope of `super`, if there is one. -/
def Store.withSuper (s : Store Value) : Option Class → Store Value
  | some c => s.push (.ofList [("super", .ofClass c)])
  | none => s

/-- The machine before a class is bound to its name, when the identities are taken that it needs. -/
def Machine.beforeClass (m : Machine) (name : Identifier) (superclass : Option Class)
    (count : Nat) : Machine :=
  { m with
    store := (m.store.put m.environment.scope name.text .nil).withSuper superclass
    nextIdentity := m.nextIdentity + count }

/-- The machine after the declaration of a class. -/
def Machine.withClass (m : Machine) (name : Identifier) (superclass : Option Class)
    (methods : List FunctionDef) : Machine :=
  let before := m.beforeClass name superclass (methods.length + 1)
  { before with
    store := before.store.put m.environment.scope name.text
      (.ofClass (m.declaredClass name superclass methods)) }

/-- A class declaration binds its name to the class that it makes. -/
theorem Stmt.execute_classDef_of_ok {n : Nat} {name : Identifier} {target : Option Reference}
    {superclass : Option Class} {methods : List FunctionDef}
    (h : Run.superclass? target m = .ok superclass m) :
    (Stmt.classDef name target methods).execute (n + 1) m =
      .ok .normal (m.withClass name superclass methods) := by
  rw [Stmt.execute_classDef, bind_apply_of_ok h]
  cases superclass with
  | none => rfl
  | some c =>
    have hsize : (m.store.put m.environment.scope name.text .nil).size = m.store.size :=
      Store.size_put ..
    show Outcome.ok Completion.normal _ = Outcome.ok Completion.normal _
    simp only [Machine.withClass, Machine.beforeClass, Machine.declaredClass,
      Machine.methodEnvironment, Store.withSuper, Environment.define, hsize]

/-- What the name of a class refers to that has been declared at the top level. -/
theorem Machine.valueOf?_withClass {name : Identifier} {superclass : Option Class}
    {methods : List FunctionDef} {id : NodeId} (henv : m.environment = .global)
    (hglobal : 0 < m.store.size) (hnone : m.depths[id]? = none) :
    (m.withClass name superclass methods).valueOf? id name.text =
      some (.ofClass (m.declaredClass name superclass methods)) := by
  have hlt : m.environment.scope <
      (m.beforeClass name superclass (methods.length + 1)).store.size := by
    rw [henv]
    refine Nat.lt_of_lt_of_le hglobal ?_
    cases superclass with
    | none => exact Nat.le_of_eq (Store.size_put ..).symm
    | some c =>
      show _ ≤ (Store.push _ _).size
      rw [Store.size_push, Store.size_put]
      exact Nat.le_succ _
  have hlookup : (m.withClass name superclass methods).depths[id]? = none := hnone
  rw [valueOf?, hlookup]
  show (m.withClass name superclass methods).global? name.text = _
  rw [global?_eq]
  exact (Store.get?_put _ _ _ _ _ hlt).trans (if_pos ⟨henv ▸ rfl, rfl⟩)

theorem Run.isSome_superclass? {target : Option Reference} {superclass : Option Class}
    (h : superclass? target m = .ok superclass after) : superclass.isSome = target.isSome := by
  cases target with
  | none =>
    cases h
    rfl
  | some target =>
    rw [superclass?, bind_apply, valueOf_apply] at h
    cases hv : m.valueOf? target.id target.name.text with
    | none =>
      rw [hv] at h
      cases h
    | some value =>
      rw [hv] at h
      cases value <;> cases h
      rfl

namespace Machine.Rooted

variable {n : Nat} {name : Identifier} {target : Option Reference} {superclass : Option Class}
  {methods : List FunctionDef}

theorem superclass? (h : m.Rooted done) {c : Class}
    (hc : Run.superclass? target m = .ok (some c) after) : c.Rooted done m := by
  cases target with
  | none => cases hc
  | some target =>
    rw [Run.superclass?, bind_apply, Run.valueOf_apply] at hc
    cases hv : m.valueOf? target.id target.name.text with
    | none =>
      rw [hv] at hc
      cases hc
    | some value =>
      rw [hv] at hc
      cases value <;> cases hc
      exact Run.Roots.rooted_of_valueOf? h hv

theorem beforeClass (h : m.Rooted done) (hname : OrdinaryName name.text)
    (hc : ∀ c, superclass = some c → c.Rooted done m) (count : Nat) :
    m.Grows (m.beforeClass name superclass count) ∧
      (m.beforeClass name superclass count).Rooted done ∧ ∀ c, superclass = some c →
        (m.beforeClass name superclass count).store.get? m.store.size "super" =
          some (.ofClass c) := by
  have hnil : Value.nil.Rooted done m := trivial
  have hnamed := h.put m.environment.scope hname hnil
  have hg : m.Grows { m with store := m.store.put m.environment.scope name.text .nil } :=
    .put m m.environment.scope .nil hname
  cases superclass with
  | none => exact ⟨hg.trans (.freshIdentity _ count), hnamed.freshIdentity count, nofun⟩
  | some c =>
    have hpushed := hnamed.push (.ofList [("super", .ofClass c)])
      fun key value hv => by
        rw [Table.get?_ofList_singleton] at hv
        split at hv
        · cases hv
          exact (hc c rfl).mono hg
        · cases hv
    refine ⟨(hg.trans (.push _ _)).trans (.freshIdentity _ count), hpushed.freshIdentity count, ?_⟩
    rintro _ ⟨⟩
    have hsize : (m.store.put m.environment.scope name.text .nil).size = m.store.size :=
      Store.size_put ..
    show ((m.store.put m.environment.scope name.text .nil).push _).get? m.store.size "super" = _
    rw [← hsize, Store.get?_push_size, Table.get?_ofList_singleton, if_pos rfl]

/-- The declared class has roots, and so has all that there was before. -/
theorem withClass (h : m.Rooted done)
    (hd : done ⟨n + 1, m, .statement (.classDef name target methods)⟩)
    (hsuperclass : Run.superclass? target m = .ok superclass m) (hname : OrdinaryName name.text)
    (hclasses : ∀ parts ∈ (Stmt.classDef name target methods).classes,
      parts.Recorded fun id => m.depths[id]?) :
    m.Grows (m.withClass name superclass methods) ∧
      (m.withClass name superclass methods).Rooted done := by
  have hc : ∀ c, superclass = some c → c.Rooted done m := fun c hc =>
    h.superclass? (hc ▸ hsuperclass)
  obtain ⟨hg, hbefore, hsuper⟩ := h.beforeClass hname hc (methods.length + 1)
  rw [Stmt.classes, List.forall_mem_cons] at hclasses
  have hmade : Configuration.Made ⟨n + 1, m, .statement (.classDef name target methods)⟩
      (m.beforeClass name superclass (methods.length + 1))
      (m.declaredClass name superclass methods) := by
    refine ⟨.intro hsuperclass, Nat.lt_add_of_pos_right (Nat.succ_pos _), fun a ha => ?_,
      fun p hp => ?_, fun f hf parts hparts => ?_⟩
    · obtain ⟨d, -, ha'⟩ := hc a ha a a.mem_chain_self
      exact ⟨ha'.id, h.global, hsuper a ha⟩
    · obtain ⟨hsome, hdepth⟩ := hclasses.1 p hp
      exact ⟨(Run.isSome_superclass? hsuperclass).trans hsome, hdepth⟩
    · exact hclasses.2 parts (Stmt.mem_methodClasses hf hparts)
  have hdeclared : Class.Rooted done (m.beforeClass name superclass (methods.length + 1))
      (m.declaredClass name superclass methods) := by
    intro b hb
    rcases Class.mem_chain_iff.1 hb with rfl | ⟨a, ha, hb⟩
    · exact ⟨_, hd, hmade⟩
    · exact (hc a ha).mono hg b hb
  exact ⟨hg.trans (.put _ _ _ hname),
    hbefore.put m.environment.scope hname (show Value.Rooted done _ (.ofClass _) from hdeclared)⟩

end Machine.Rooted

end Lox
