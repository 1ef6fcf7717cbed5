import Lox.Proofs.Evaluation.Nesting

/-!
# Steps in nested environments

Each step that evaluation is made of leaves a nested machine behind, whatever its outcome, and gives
nested values. A step that writes does so in a scope for code. A step that opens a scope is one of a
task that has been begun.
-/

namespace Lox

open Procedure

/-- However the run of `x` from `m` ends, the machine is nested after it. If it ends normally, no
scope has gone away, and the result and the machine have the property `P`. -/
def Run.Nests {α : Type} (done : Configuration → Prop) (depths : Depths) (m : Machine) (x : Run α)
    (P : α → Machine → Prop) : Prop :=
  match x m with
  | .ok a after => (after.Nested done depths ∧ m.store.size ≤ after.store.size) ∧ P a after
  | .error _ after => after.Nested done depths
  | .exhausted => True

variable {done : Configuration → Prop} {depths : Depths} {m after : Machine} {d : Configuration}
  {names : ScopeNames} {value : Value}

namespace Run.Nests

variable {α β : Type} {x : Run α} {f : α → Run β} {P : α → Machine → Prop} {Q : β → Machine → Prop}

theorem of_ok {a : α} (h : Nests done depths m x P) (ho : x m = .ok a after) :
    after.Nested done depths ∧ m.store.size ≤ after.store.size ∧ P a after := by
  unfold Nests at h
  rw [ho] at h
  exact ⟨h.1.1, h.1.2, h.2⟩

/-- Whatever state is left behind. -/
theorem of_state (h : Nests done depths m x P) (ho : (x m).state? = some after) :
    after.Nested done depths := by
  unfold Nests at h
  cases hx : x m with
  | ok a later =>
    rw [hx] at h ho
    cases ho
    exact h.1.1
  | error e later =>
    rw [hx] at h ho
    cases ho
    exact h
  | exhausted =>
    rw [hx] at ho
    cases ho

/-- What the run gives, as values that a task ends with. -/
theorem of_mem_next {g : α → List Value} (h : Nests done depths m x P)
    (hstate : (x m).state? = some after) (hv : value ∈ (x m).next fun a _ => g a) :
    ∃ a, P a after ∧ value ∈ g a := by
  obtain ⟨a, later, ho, hv⟩ := Outcome.mem_next.1 hv
  rw [ho] at hstate
  cases hstate
  exact ⟨a, (h.of_ok ho).2.2, hv⟩

/-- Two parts of a run in a row. -/
theorem bind (hx : Nests done depths m x P)
    (hf : ∀ a after, x m = .ok a after → after.Nested done depths → P a after →
      m.store.size ≤ after.store.size → Nests done depths after (f a) Q) :
    Nests done depths m (x >>= f) Q := by
  unfold Nests at *
  rw [bind_apply]
  cases ho : x m with
  | exhausted => trivial
  | error e after =>
    rw [ho] at hx
    exact hx
  | ok a after =>
    rw [ho] at hx
    have hnext := hf a after ho hx.1.1 hx.2 hx.1.2
    simp only
    cases hb : f a after with
    | exhausted => trivial
    | error e later =>
      rw [hb] at hnext
      exact hnext
    | ok b later =>
      rw [hb] at hnext
      exact ⟨⟨hnext.1.1, Nat.le_trans hx.1.2 hnext.1.2⟩, hnext.2⟩

theorem pure {a : α} (h : m.Nested done depths) (ha : P a m) :
    Nests done depths m (Pure.pure a) P := ⟨⟨h, Nat.le_refl _⟩, ha⟩

theorem raise (h : m.Nested done depths) (fault : RuntimeFault) (line : Nat) :
    Nests done depths m (Run.raise fault line : Run α) P := h

theorem located (h : m.Nested done depths) {line : Nat} {result : Except RuntimeFault α}
    (hr : ∀ a, result = .ok a → P a m) : Nests done depths m (Run.located line result) P := by
  cases result with
  | ok a => exact pure h (hr a rfl)
  | error fault => exact raise h fault line

/-- A part of the machine is read, and the run goes on from the same machine. -/
theorem reading {g : Machine → α} (h : Nests done depths m (f (g m)) Q) :
    Nests done depths m (read g >>= f) Q := h

/-- The run of `x` from `start`, with `g` after it, counts as a run from `m`, if the second change
leaves alone all that values depend on. -/
theorem of_afterwards {start : Machine} {g : Machine → Machine} {y : Run α}
    (hy : y m = afterwards g x start) (h : Nests done depths start x P)
    (hstart : m.store.size ≤ start.store.size)
    (hg : ∀ later : Machine, later.Nested done depths → (g later).Nested done depths)
    (hs : ∀ later, (g later).store = later.store) (hP : ∀ a later, P a later → P a (g later)) :
    Nests done depths m y P := by
  unfold Nests at *
  rw [hy, afterwards]
  cases ho : x start with
  | exhausted => trivial
  | error e later =>
    rw [ho] at h
    exact hg later h
  | ok a later =>
    rw [ho] at h
    refine ⟨⟨hg later h.1.1, ?_⟩, hP a later h.2⟩
    rw [hs]
    exact Nat.le_trans hstart h.1.2

theorem asCall {line : Nat} (hm : m.Nested done depths)
    (h : m.callDepth < m.maxCallDepth →
      Nests done depths { m with callDepth := m.callDepth + 1 } x P)
    (hP : ∀ a (s t : Machine), s.store.size ≤ t.store.size → P a s → P a t) :
    Nests done depths m (Run.asCall line x) P := by
  by_cases hfull : m.maxCallDepth ≤ m.callDepth
  · unfold Nests
    rw [asCall_apply, if_pos hfull]
    exact hm
  · exact of_afterwards ((asCall_apply line x m).trans (if_neg hfull)) (h (Nat.lt_of_not_le hfull))
      (Nat.le_refl _) (fun _ hlater => hlater.of_eq rfl rfl rfl rfl) (fun _ => rfl)
      fun a later ha => hP a later _ (Nat.le_refl _) ha

/-! ### Variables -/

theorem nested_of_getAt? (h : m.Nested done depths) {env : Environment} {depth : Nat}
    {name : String}
    (hv : env.getAt? m.store depth name = some value) : value.Nested done depths m := by
  obtain ⟨outer, -, hvalue⟩ := Option.bind_eq_some_iff.1 hv
  exact h.store outer.scope name value hvalue

theorem nested_of_valueOf? (h : m.Nested done depths) {id : NodeId} {name : String}
    (hv : m.valueOf? id name = some value) : value.Nested done depths m := by
  unfold Machine.valueOf? at hv
  split at hv
  · exact nested_of_getAt? h hv
  · rw [Machine.global?_eq] at hv
    exact h.store 0 name value hv

theorem valueOf (h : m.Nested done depths) (id : NodeId) (name : String) (line : Nat) :
    Nests done depths m (Run.valueOf id name line) fun value after =>
      value.Nested done depths after := by
  unfold Nests
  rw [valueOf_apply]
  cases hv : m.valueOf? id name with
  | none => exact h
  | some value => exact ⟨⟨h, Nat.le_refl _⟩, nested_of_valueOf? h hv⟩

theorem define (H : Charted done) (h : m.Nested done depths)
    (henv : m.environment.Nested done .code names) (name : String)
    (hv : value.Nested done depths m) :
    Nests done depths m (Run.define name value) fun _ _ => True :=
  ⟨⟨h.put (henv.writable H) name hv, Nat.le_of_eq (Store.size_put ..).symm⟩, trivial⟩

theorem assign (H : Charted done) (h : m.Nested done depths)
    (henv : m.environment.Nested done .code names) {target : Reference}
    (hname : OrdinaryName target.name.text)
    (hdepth : depths target.id = names.depth? target.name.text) (hv : value.Nested done depths m) :
    Nests done depths m (Run.assign target value) fun _ after =>
      value.Nested done depths after := by
  unfold Nests
  rw [assign_apply]
  cases hscope : m.assignee? target.id target.name.text with
  | none => exact h
  | some scope =>
    have hle : m.store.size ≤ (m.store.put scope target.name.text value).size :=
      Nat.le_of_eq (Store.size_put ..).symm
    exact ⟨⟨h.put (h.writable_assignee H henv hname hdepth hscope) _ hv, hle⟩, hv.mono hle⟩

/-! ### Instances and calls -/

theorem instantiate (h : m.Nested done depths) {c : Class}
    (hc : Value.Nested done depths m (.ofClass c)) :
    Nests done depths m (Run.instantiate c) fun object after =>
      Value.Nested done depths after (.ofInstance object) := by
  have ho : Value.Nested done depths m (.ofInstance ⟨m.fields.size, c⟩) := hc
  exact ⟨⟨h.instantiate, Nat.le_refl _⟩, ho.mono (Nat.le_refl _)⟩

theorem setField (h : m.Nested done depths) (object : Instance) (name : String)
    (hv : value.Nested done depths m) :
    Nests done depths m (Run.setField object name value) fun _ after =>
      value.Nested done depths after :=
  ⟨⟨h.setField object name hv, Nat.le_refl _⟩, hv.mono (Nat.le_refl _)⟩

theorem bindMethod (H : Charted done) (h : m.Nested done depths) (hd : done d) {method : Function}
    {object : Instance} (hbinds : d.Binds m method object) (hmethod : method.Waits done depths m)
    (ho : Value.Nested done depths m (.ofInstance object)) :
    Nests done depths m (Run.bind method object) fun f after => f.Nested done depths after := by
  obtain ⟨hafter, hle, hf⟩ := h.bindMethod H hd hbinds hmethod ho rfl
  exact ⟨⟨hafter, hle⟩, hf⟩

/-- The method that a task looks for and binds. -/
theorem boundMethod (H : Charted done) (h : m.Nested done depths) (hd : done d) {c : Class}
    {object : Instance} {name : Identifier} (hc : Value.Nested done depths m (.ofClass c))
    (ho : Value.Nested done depths m (.ofInstance object))
    (hbinds : ∀ method, c.findMethod? name.text = some method → d.Binds m method object) :
    Nests done depths m (match c.findMethod? name.text with
      | some method => do return .function (← Run.bind method object)
      | none => Run.raise (.undefinedProperty name.text) name.line : Run Value)
      fun value after => value.Nested done depths after := by
  cases hfound : c.findMethod? name.text with
  | none => exact raise h _ _
  | some method =>
    have hmethod : method.Waits done depths m := Class.Every.findMethod? c hc hfound
    exact bind (bindMethod H h hd (hbinds method hfound) hmethod ho) fun f after _ hafter hf _ =>
      pure hafter hf

theorem property (H : Charted done) (h : m.Nested done depths) (hd : done d) {object : Instance}
    {name : Identifier} (ho : Value.Nested done depths m (.ofInstance object))
    (hbinds : ∀ method, m.fields.get? object.id name.text = none →
      object.ofClass.findMethod? name.text = some method → d.Binds m method object) :
    Nests done depths m (Run.property object name) fun value after =>
      value.Nested done depths after := by
  unfold Run.property
  apply reading
  cases hfield : m.fields.get? object.id name.text with
  | some value => exact pure h (h.fields _ _ value hfield)
  | none => exact boundMethod H h hd ho ho fun method => hbinds method hfield

theorem superMethod (H : Charted done) (h : m.Nested done depths) {n : Nat} {id : NodeId}
    {line : Nat} {name : Identifier} (hd : done ⟨n + 1, m, .expression (.super id line name)⟩) :
    Nests done depths m (Run.superMethod id line name) fun value after =>
      value.Nested done depths after := by
  unfold Run.superMethod
  apply reading
  cases hdepth : m.depths[id]? with
  | none => exact raise h _ _
  | some depth =>
    apply reading
    cases hsuper : m.environment.getAt? m.store depth "super" with
    | none => exact raise h _ _
    | some superclass =>
      apply reading
      cases hthis : m.environment.getAt? m.store (depth - 1) "this" with
      | none => exact raise h _ _
      | some object =>
        cases superclass with
        | ofClass c =>
          cases object with
          | ofInstance object =>
            apply boundMethod H h hd (nested_of_getAt? h hsuper) (nested_of_getAt? h hthis)
            intro method hmethod
            exact .superMethod hdepth hsuper hthis hmethod
          | _ => exact raise h _ _
        | _ => exact raise h _ _

theorem write (h : m.Nested done depths) (text : String) (line : Nat) :
    Nests done depths m (Run.write text line) fun _ _ => True := by
  unfold Nests Run.write
  split
  · next ho =>
    split at ho <;> cases ho
    exact ⟨⟨h.of_eq rfl rfl rfl rfl, Nat.le_refl _⟩, trivial⟩
  · next ho =>
    split at ho <;> cases ho
    exact h.of_eq rfl rfl rfl rfl
  · trivial

theorem callHost (h : m.Nested done depths) (f : Native) {arguments : List Value} (line : Nat)
    (ha : ∀ argument ∈ arguments, argument.Nested done depths m) :
    Nests done depths m (Run.callHost f arguments line) fun value after =>
      value.Nested done depths after := by
  unfold Run.callHost
  apply reading
  cases hhost : m.hostFunctions[f.id]? with
  | none => exact pure h trivial
  | some host =>
    have hpassive := h.hostFunctions host (Array.mem_of_getElem? hhost)
    cases hcall : host arguments with
    | error message =>
      simp only [hcall]
      exact raise h _ _
    | ok value =>
      simp only [hcall]
      exact pure h (hpassive _ _ arguments value ha hcall)

theorem callResult (h : m.Nested done depths) (f : Function) (line : Nat) {completion : Completion}
    (hc : ∀ value ∈ completion.values, value.Nested done depths m) :
    Nests done depths m (Run.callResult f line completion) fun value after =>
      value.Nested done depths after := by
  unfold Run.callResult
  split
  · apply reading
    cases hthis : f.closure.getAt? m.store 0 "this" with
    | none => exact raise h _ _
    | some object => exact pure h (nested_of_getAt? h hthis)
  · cases completion with
    | returned value => exact pure h (hc value (.head _))
    | normal => exact pure h trivial

/-- A class declaration looks for the superclass first. -/
theorem superclass? (h : m.Nested done depths) (target : Option Reference) :
    Nests done depths m (Run.superclass? target) fun superclass after =>
      ∀ c, superclass = some c → Value.Nested done depths after (.ofClass c) := by
  cases target with
  | none => exact pure h nofun
  | some target =>
    refine bind (valueOf h _ _ _) fun value after _ hafter hv _ => ?_
    cases value with
    | ofClass c =>
      refine pure hafter ?_
      rintro _ ⟨⟩
      exact hv
    | _ => exact raise hafter _ _

end Run.Nests

/-! ### Class declarations -/

namespace Machine.Nested

variable {n : Nat} {name : Identifier} {target : Option Reference} {superclass : Option Class}
  {methods : List FunctionDef}

theorem superclass? (h : m.Nested done depths) {c : Class}
    (hc : Run.superclass? target m = .ok (some c) after) :
    Value.Nested done depths after (.ofClass c) :=
  ((Run.Nests.superclass? h target).of_ok hc).2.2 c rfl

/-- Where the methods of a class are declared, and which names are around them there. -/
theorem exists_methodEnvironment
    (hd : done ⟨n + 1, m, .statement (.classDef name target methods)⟩)
    (henv : m.environment.Nested done .code names)
    (hplaced : (Stmt.classDef name target methods).Placed depths names)
    (hsuperclass : Run.superclass? target m = .ok superclass m) :
    ∃ p inner, (m.methodEnvironment superclass).Nested done p inner ∧
      Stmt.PlacedMethods depths (["this"] :: inner) methods := by
  have hdeclared := henv.declare name.text
  cases target with
  | none =>
    cases hsuperclass
    exact ⟨_, _, hdeclared, hplaced.2.2⟩
  | some target =>
    obtain ⟨c, rfl⟩ := Option.isSome_iff_exists.1 (Run.isSome_superclass? hsuperclass)
    have hopened : Opened done ⟨m.store.size, m.environment, .superclass c⟩ :=
      ⟨_, hd, .derived hsuperclass⟩
    exact ⟨_, _, .inner hdeclared hopened rfl, hplaced.2.2.2⟩

/-- Before a class is bound to its name, the scope for its methods is there. -/
theorem beforeClass (H : Charted done) (h : m.Nested done depths)
    (hd : done ⟨n + 1, m, .statement (.classDef name target methods)⟩)
    (henv : m.environment.Nested done .code names) (hwithin : m.environment.Within m.store.size)
    (hsuperclass : Run.superclass? target m = .ok superclass m) (count : Nat) :
    (m.beforeClass name superclass count).Nested done depths ∧
      m.store.size ≤ (m.beforeClass name superclass count).store.size ∧
      (m.methodEnvironment superclass).Within
        (m.beforeClass name superclass count).store.size := by
  have hsize : (m.store.put m.environment.scope name.text .nil).size = m.store.size :=
    Store.size_put ..
  have hnil : Value.nil.Nested done depths m := trivial
  have hnamed := h.put (henv.writable H) name.text hnil
  cases superclass with
  | none =>
    exact ⟨hnamed.of_eq rfl rfl rfl rfl, Nat.le_of_eq hsize.symm,
      hwithin.mono (Nat.le_of_eq hsize.symm)⟩
  | some c =>
    have hopened : Opened done ⟨(m.store.put m.environment.scope name.text .nil).size,
        m.environment, .superclass c⟩ := by
      rw [hsize]
      exact ⟨_, hd, .derived hsuperclass⟩
    have hpushed := hnamed.pushSettled H hopened rfl
      ((h.superclass? hsuperclass).mono (Nat.le_of_eq hsize.symm))
    have hlarger : (m.beforeClass name (some c) count).store.size = m.store.size + 1 := by
      show (Store.push _ _).size = _
      rw [Store.size_push, hsize]
    refine ⟨hpushed.of_eq rfl rfl rfl rfl, ?_, hwithin.inner.mono (Nat.le_of_eq hlarger.symm)⟩
    exact Nat.le_of_lt (Nat.lt_of_lt_of_eq (Nat.lt_succ_self _) hlarger.symm)

/-- After a class declaration the class has only methods that wait, where resolution has seen
them. -/
theorem withClass (H : Charted done) (h : m.Nested done depths)
    (hd : done ⟨n + 1, m, .statement (.classDef name target methods)⟩)
    (henv : m.environment.Nested done .code names) (hwithin : m.environment.Within m.store.size)
    (hplaced : (Stmt.classDef name target methods).Placed depths names)
    (hsuperclass : Run.superclass? target m = .ok superclass m) :
    (m.withClass name superclass methods).Nested done depths ∧
      m.store.size ≤ (m.withClass name superclass methods).store.size := by
  obtain ⟨hbefore, hle, hthere⟩ := h.beforeClass H hd henv hwithin hsuperclass (methods.length + 1)
  obtain ⟨p, inner, hnested, hmethods⟩ := exists_methodEnvironment hd henv hplaced hsuperclass
  have hmakes : Configuration.Makes ⟨n + 1, m, .statement (.classDef name target methods)⟩ _ :=
    .intro hsuperclass
  have hclass : Value.Nested done depths (m.beforeClass name superclass (methods.length + 1))
      (.ofClass (m.declaredClass name superclass methods)) := by
    refine Class.every_iff.2 fun b hb => ?_
    rcases Class.mem_chain_iff.1 hb with rfl | ⟨a, rfl, habove⟩
    · intro key f hf
      obtain ⟨hmem, -, hclosure, -⟩ := hmakes.method hf
      exact ⟨hclosure ▸ hthere, p, inner, hclosure ▸ hnested, hmethods.of_mem hmem⟩
    · exact Class.every_iff.1 ((h.superclass? hsuperclass).mono hle) b habove
  refine ⟨hbefore.put (henv.writable H) name.text hclass, Nat.le_trans hle ?_⟩
  exact Nat.le_of_eq (Store.size_put ..).symm

end Machine.Nested

end Lox
