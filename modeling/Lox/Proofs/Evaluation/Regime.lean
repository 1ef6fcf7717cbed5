import Lox.Proofs.Evaluation.Keeping
import Lox.Proofs.Evaluation.Reach
import Lox.Proofs.Resolution.Ordinary
import Lox.Proofs.Syntax.Functions

/-!
# Regimes

A regime says which functions there may be in a run: which may be declared, and which values of them
may be called. It is such that a machine under the regime can only come to machines under it: what
is declared by permitted code is permitted, and the code assigns to ordinary names only, so that no
binding of `this` ever changes.

## Implementation notes

Nothing is asked of the environment or of recorded depths. So a regime holds of machines of which it
is not known that references hit.
-/

namespace Lox

/-- The bindings of `this` and `super` in local scopes are still there, with the same values. -/
structure Store.Retains (s t : Store Value) : Prop where
  size : s.size ≤ t.size
  get? : ∀ scope name value, 0 < scope → ¬ OrdinaryName name → s.get? scope name = some value →
    t.get? scope name = some value

namespace Store.Retains

variable {s t u : Store Value}

theorem refl (s : Store Value) : s.Retains s := ⟨Nat.le_refl _, fun _ _ _ _ _ h => h⟩

theorem trans (h : s.Retains t) (k : t.Retains u) : s.Retains u where
  size := Nat.le_trans h.size k.size
  get? scope name value hlocal hname hv :=
    k.get? scope name value hlocal hname (h.get? scope name value hlocal hname hv)

/-- Writing one name in one scope, unless the name is one of the two and the scope is local. -/
theorem put_of_ne (s : Store Value) (scope : ScopeId) {name : String} (value : Value)
    (h : ∀ other key, 0 < other → ¬ OrdinaryName key → ¬ (other = scope ∧ key = name)) :
    s.Retains (s.put scope name value) := by
  refine ⟨Nat.le_of_eq (Store.size_put ..).symm, fun other key old hlocal hkey hold => ?_⟩
  by_cases hother : other = scope
  · subst hother
    rw [Store.get?_put s _ _ _ _ (Store.Extends.get?_lt hold), if_neg (h other key hlocal hkey),
      hold]
  · rw [Store.get?, Store.scope_put_of_ne s name value hother]
    exact hold

theorem put (s : Store Value) (scope : ScopeId) {name : String} (value : Value)
    (hname : OrdinaryName name) : s.Retains (s.put scope name value) := by
  apply put_of_ne
  rintro other key - hkey ⟨-, rfl⟩
  exact hkey hname

theorem put_global (s : Store Value) (name : String) (value : Value) :
    s.Retains (s.put 0 name value) := by
  apply put_of_ne
  rintro other key hlocal - ⟨rfl, -⟩
  exact Nat.lt_irrefl 0 hlocal

theorem push (s : Store Value) (bindings : Table Value) : s.Retains (s.push bindings) := by
  refine ⟨by rw [Store.size_push]; exact Nat.le_succ _, fun scope name value _ _ hv => ?_⟩
  rw [Store.get?_push_of_lt s bindings name (Store.Extends.get?_lt hv)]
  exact hv

end Store.Retains

/-- Which functions may be declared, and which may be called. -/
structure Regime where
  declaration : FunctionDef → Prop
  callable : Function → Store Value → Prop
  ordinary {f} : declaration f → Stmt.OrdinaryFunction f
  inside {f} : declaration f → ∀ g ∈ Stmt.ownFunctionsAll f.body, declaration g
  code {f s} : callable f s → declaration f.declaration
  retained {f s t} : s.Retains t → callable f s → callable f t
  -- A function is made by its declaration, or by binding a method to an instance.
  declared {id f closure s} : declaration f → callable ⟨id, f, closure, false⟩ s
  bound {id f closure isInitializer s object} : declaration f → 0 < closure.scope →
    s.get? closure.scope "this" = some (.ofInstance object) →
    callable ⟨id, f, closure, isInitializer⟩ s

/-- The functions of a value may be called and its methods may be declared. -/
def Value.Under (r : Regime) (s : Store Value) (value : Value) : Prop :=
  value.Every (r.callable · s) fun f => r.declaration f.declaration

/-- The class has only methods that may be declared. -/
abbrev Class.Under (r : Regime) (c : Class) : Prop := c.Every fun f => r.declaration f.declaration

/-- The function of the host brings in no function that is against the regime. -/
def HostFunction.Under (r : Regime) (f : HostFunction) : Prop :=
  ∀ s arguments value, (∀ argument ∈ arguments, argument.Under r s) → f arguments = .ok value →
    value.Under r s

/-- All functions in the machine are under the regime. -/
structure Machine.Under (r : Regime) (m : Machine) : Prop where
  global : 0 < m.store.size
  store : ∀ scope name value, m.store.get? scope name = some value → value.Under r m.store
  fields : ∀ object name value, m.fields.get? object name = some value → value.Under r m.store
  hostFunctions : ∀ f ∈ m.hostFunctions, HostFunction.Under r f

/-- The code of a statement is under the regime. -/
structure Stmt.Under (r : Regime) (s : Stmt) : Prop where
  ordinary : s.Ordinary
  declaration : ∀ f ∈ s.ownFunctions, r.declaration f

structure Stmt.UnderAll (r : Regime) (body : List Stmt) : Prop where
  ordinary : Stmt.OrdinaryAll body
  declaration : ∀ f ∈ Stmt.ownFunctionsAll body, r.declaration f

/-- The value of a returning statement is under the regime. -/
def Completion.Under (r : Regime) (s : Store Value) : Completion → Prop
  | .normal => True
  | .returned value => value.Under r s

/-- However the run of `x` from `m` ends, it leaves a machine under the regime, in which `this` and
`super` are bound as before; if it ends normally, the result and the store have the property `P`. -/
def Run.Abides {α : Type} (r : Regime) (m : Machine) (x : Run α) (P : α → Store Value → Prop) :
    Prop :=
  match x m with
  | .ok a after => (after.Under r ∧ m.store.Retains after.store) ∧ P a after.store
  | .error _ after => after.Under r ∧ m.store.Retains after.store
  | .exhausted => True

theorem HostFunction.Passive.under {f : HostFunction} (h : f.Passive) (r : Regime) : f.Under r :=
  fun s arguments value => h (r.callable · s) (fun f => r.declaration f.declaration) arguments value

section

variable {r : Regime} {s t : Store Value} {m after : Machine}

theorem Value.Under.mono {value : Value} (h : value.Under r s) (hst : s.Retains t) :
    value.Under r t :=
  Value.Every.mono (fun _ hf => r.retained hst hf) (fun _ hf => hf) h

theorem Machine.Under.of_eq (h : m.Under r) (hs : after.store = m.store)
    (hf : after.fields = m.fields) (hh : after.hostFunctions = m.hostFunctions) :
    after.Under r := by
  constructor
  · rw [hs]
    exact h.global
  · rw [hs]
    exact h.store
  · rw [hs, hf]
    exact h.fields
  · rw [hh]
    exact h.hostFunctions

/-- A store with new bindings. -/
theorem Machine.Under.withStore (h : m.Under r) (hst : m.store.Retains t)
    (hnew : ∀ scope name value, t.get? scope name = some value → value.Under r m.store ∨
      value.Under r t) : { m with store := t }.Under r where
  global := Nat.lt_of_lt_of_le h.global hst.size
  store scope name value hv := (hnew scope name value hv).elim (·.mono hst) id
  fields object name value hv := (h.fields object name value hv).mono hst
  hostFunctions := h.hostFunctions

theorem Machine.Under.put (h : m.Under r) (scope : ScopeId) {name : String} {value : Value}
    (hname : OrdinaryName name) (hv : value.Under r m.store) :
    { m with store := m.store.put scope name value }.Under r := by
  refine h.withStore (.put m.store scope value hname) fun other key found hfound => .inl ?_
  rcases Store.get?_of_put hfound with rfl | hold
  · exact hv
  · exact h.store other key found hold

theorem Machine.Under.push (h : m.Under r) {bindings : Table Value}
    (hb : ∀ name value, bindings.get? name = some value → value.Under r m.store) :
    { m with store := m.store.push bindings }.Under r := by
  refine h.withStore (.push m.store bindings) fun scope name value hv => .inl ?_
  rcases Store.get?_of_push hv with hold | hnew
  · exact h.store scope name value hold
  · exact hb name value hnew

end

namespace Run.Abides

open Procedure

variable {α β : Type} {r : Regime} {m after : Machine} {x : Run α} {f : α → Run β}
  {P : α → Store Value → Prop} {Q : β → Store Value → Prop}

theorem of_ok {a : α} (h : Abides r m x P) (ho : x m = .ok a after) :
    after.Under r ∧ m.store.Retains after.store ∧ P a after.store := by
  unfold Abides at h
  rw [ho] at h
  exact ⟨h.1.1, h.1.2, h.2⟩

/-- Whatever state is left behind. -/
theorem of_state (h : Abides r m x P) (ho : (x m).state? = some after) :
    after.Under r ∧ m.store.Retains after.store := by
  unfold Abides at h
  cases hx : x m with
  | ok a later =>
    rw [hx] at h ho
    cases ho
    exact h.1
  | error e later =>
    rw [hx] at h ho
    cases ho
    exact h
  | exhausted =>
    rw [hx] at ho
    cases ho

theorem mono {P' : α → Store Value → Prop} (h : Abides r m x P)
    (hPP' : ∀ a store, P a store → P' a store) : Abides r m x P' := by
  unfold Abides at *
  split
  · next ho =>
    rw [ho] at h
    exact ⟨h.1, hPP' _ _ h.2⟩
  · next ho =>
    rw [ho] at h
    exact h
  · trivial

/-- Two parts of a run in a row. -/
theorem bind (hx : Abides r m x P)
    (hf : ∀ a after, after.Under r → m.store.Retains after.store → P a after.store →
      Abides r after (f a) Q) : Abides r m (x >>= f) Q := by
  unfold Abides at *
  rw [bind_apply]
  cases ho : x m with
  | exhausted => trivial
  | error e after =>
    rw [ho] at hx
    exact hx
  | ok a after =>
    rw [ho] at hx
    have hnext := hf a after hx.1.1 hx.1.2 hx.2
    simp only
    cases hb : f a after with
    | exhausted => trivial
    | error e later =>
      rw [hb] at hnext
      exact ⟨hnext.1, hx.1.2.trans hnext.2⟩
    | ok b later =>
      rw [hb] at hnext
      exact ⟨⟨hnext.1.1, hx.1.2.trans hnext.1.2⟩, hnext.2⟩

theorem pure {a : α} (h : m.Under r) (ha : P a m.store) : Abides r m (Pure.pure a) P :=
  ⟨⟨h, .refl _⟩, ha⟩

theorem raise (h : m.Under r) (fault : RuntimeFault) (line : Nat) :
    Abides r m (Run.raise fault line : Run α) P := ⟨h, .refl _⟩

theorem located (h : m.Under r) {line : Nat} {result : Except RuntimeFault α}
    (hr : ∀ a, result = .ok a → P a m.store) : Abides r m (Run.located line result) P := by
  cases result with
  | ok a => exact pure h (hr a rfl)
  | error fault => exact raise h fault line

/-- A part of the machine is read. -/
theorem read {g : Machine → α} (h : m.Under r) (hg : P (g m) m.store) :
    Abides r m (Procedure.read g) P := ⟨⟨h, .refl _⟩, hg⟩

theorem update {g : Machine → Machine} {P : Unit → Store Value → Prop} (h : (g m).Under r)
    (hst : m.store.Retains (g m).store) (hP : P () (g m).store) :
    Abides r m (Procedure.update g) P := ⟨⟨h, hst⟩, hP⟩

/-- The run of `x` from `start`, with `g` after it, counts as a run from `m`, if both changes leave
the values alone. -/
theorem of_afterwards {start : Machine} {g : Machine → Machine} {y : Run α}
    (hy : y m = afterwards g x start) (h : Abides r start x P) (hstart : start.store = m.store)
    (hs : ∀ after, (g after).store = after.store) (hf : ∀ after, (g after).fields = after.fields)
    (hh : ∀ after, (g after).hostFunctions = after.hostFunctions) : Abides r m y P := by
  unfold Abides at *
  rw [hy, afterwards, ← hstart]
  cases ho : x start with
  | exhausted => trivial
  | error e after =>
    rw [ho] at h
    simp only [hs]
    exact ⟨h.1.of_eq (hs _) (hf _) (hh _), h.2⟩
  | ok a after =>
    rw [ho] at h
    simp only [hs]
    exact ⟨⟨h.1.1.of_eq (hs _) (hf _) (hh _), h.1.2⟩, h.2⟩

theorem inEnvironment {env : Environment} (h : Abides r { m with environment := env } x P) :
    Abides r m (Run.inEnvironment env x) P :=
  of_afterwards (inEnvironment_apply env x m) h rfl (fun _ => rfl) (fun _ => rfl) fun _ => rfl

theorem asCall {line : Nat} (hm : m.Under r)
    (h : Abides r { m with callDepth := m.callDepth + 1 } x P) :
    Abides r m (Run.asCall line x) P := by
  by_cases hfull : m.maxCallDepth ≤ m.callDepth
  · unfold Abides
    rw [asCall_apply, if_pos hfull]
    exact ⟨hm, .refl _⟩
  · exact of_afterwards ((asCall_apply line x m).trans (if_neg hfull)) h rfl (fun _ => rfl)
      (fun _ => rfl) fun _ => rfl

/-! ### Variables -/

theorem under_of_getAt? {env : Environment} {depth : Nat} {name : String} {value : Value}
    (h : m.Under r) (hv : env.getAt? m.store depth name = some value) : value.Under r m.store := by
  obtain ⟨outer, -, hvalue⟩ := Option.bind_eq_some_iff.1 hv
  exact h.store outer.scope name value hvalue

theorem valueOf (h : m.Under r) (id : NodeId) (name : String) (line : Nat) :
    Abides r m (Run.valueOf id name line) fun value store => value.Under r store := by
  unfold Abides
  rw [valueOf_apply]
  cases hv : m.valueOf? id name with
  | none => exact ⟨h, .refl _⟩
  | some value =>
    refine ⟨⟨h, .refl _⟩, ?_⟩
    unfold Machine.valueOf? at hv
    split at hv
    · exact under_of_getAt? h hv
    · rw [Machine.global?_eq] at hv
      exact h.store 0 name value hv

theorem define (h : m.Under r) {name : String} {v : Value} (hname : OrdinaryName name)
    (hv : v.Under r m.store) : Abides r m (Run.define name v) fun _ _ => True :=
  update (h.put m.environment.scope hname hv) (.put m.store m.environment.scope v hname) trivial

theorem assign (h : m.Under r) {target : Reference} {value : Value}
    (hname : OrdinaryName target.name.text) (hv : value.Under r m.store) :
    Abides r m (Run.assign target value) fun _ _ => True := by
  unfold Abides
  rw [assign_apply]
  cases m.assignee? target.id target.name.text with
  | none => exact ⟨h, .refl _⟩
  | some scope => exact ⟨⟨h.put scope hname hv, .put m.store scope value hname⟩, trivial⟩

/-! ### Scopes, functions and instances -/

theorem newScope (h : m.Under r) (env : Environment) {bindings : Table Value}
    (hb : ∀ name value, bindings.get? name = some value → value.Under r m.store) :
    Abides r m (Run.newScope env bindings) fun frame store => 0 < frame.scope ∧
      ∀ name value, bindings.get? name = some value → store.get? frame.scope name = some value := by
  refine ⟨⟨h.push hb, .push m.store bindings⟩, h.global, fun name value hv => ?_⟩
  show (m.store.push bindings).get? m.store.size name = some value
  rw [Store.get?_push_size]
  exact hv

theorem freshIdentity (h : m.Under r) (count : Nat) :
    Abides r m (Run.freshIdentity count) fun _ store => store = m.store :=
  ⟨⟨h.of_eq rfl rfl rfl, .refl _⟩, rfl⟩

/-- A method becomes callable when it is bound: its scope binds `this`. -/
theorem bindMethod (h : m.Under r) {method : Function} {object : Instance}
    (hf : r.declaration method.declaration) (ho : object.ofClass.Under r) :
    Abides r m (Run.bind method object) fun f store => r.callable f store ∧
      f.declaration = method.declaration ∧ 0 < f.closure.scope ∧
      store.get? f.closure.scope "this" = some (.ofInstance object) := by
  unfold Run.bind
  refine bind (newScope h method.closure fun name value hv => ?_)
    fun closure after hm _ hclosure => ?_
  · rw [Table.get?_ofList_singleton] at hv
    split at hv
    · cases hv
      exact ho
    · cases hv
  · have hthis : after.store.get? closure.scope "this" = some (.ofInstance object) := by
      apply hclosure.2
      rw [Table.get?_ofList_singleton, if_pos rfl]
    refine bind (freshIdentity hm 1) fun id later hl _ hstore => pure hl ?_
    rw [hstore]
    exact ⟨r.bound hf hclosure.1 hthis, rfl, hclosure.1, hthis⟩

theorem instantiate (h : m.Under r) {c : Class} (hc : c.Under r) :
    Abides r m (Run.instantiate c) fun object _ => object.ofClass.Under r := by
  refine ⟨⟨⟨h.global, h.store, ?_, h.hostFunctions⟩, .refl _⟩, hc⟩
  intro object name value hv
  rcases Store.get?_of_push hv with hold | hnew
  · exact h.fields object name value hold
  · cases hnew

theorem property (h : m.Under r) {object : Instance} (name : Identifier)
    (ho : object.ofClass.Under r) :
    Abides r m (Run.property object name) fun value store => value.Under r store := by
  unfold Run.property
  refine bind (read (P := fun field? store => ∀ value, field? = some value → value.Under r store) h
    fun value hv => h.fields _ _ value hv) fun field? after hm _ hfield => ?_
  cases field? with
  | some value => exact pure hm (hfield value rfl)
  | none =>
    cases hmethod : object.ofClass.findMethod? name.text with
    | none => exact raise hm _ _
    | some method =>
      exact bind (bindMethod hm (Class.Every.findMethod? _ ho hmethod) ho)
        fun f later hl _ hf => pure hl hf.1

theorem setField (h : m.Under r) (object : Instance) (name : String) {value : Value}
    (hv : value.Under r m.store) : Abides r m (Run.setField object name value) fun _ _ => True := by
  refine update ⟨h.global, h.store, fun other key found hfound => ?_, h.hostFunctions⟩
    (.refl _) trivial
  rcases Store.get?_of_put hfound with rfl | hold
  · exact hv
  · exact h.fields other key found hold

theorem getAt? (h : m.Under r) (depth : Nat) (name : String) :
    Abides r m (Procedure.read fun m => m.environment.getAt? m.store depth name)
      fun value? store => ∀ value, value? = some value → value.Under r store :=
  read h fun _ hv => under_of_getAt? h hv

theorem superMethod (h : m.Under r) (id : NodeId) (line : Nat) (method : Identifier) :
    Abides r m (Run.superMethod id line method) fun value store => value.Under r store := by
  unfold Run.superMethod
  refine bind (read (P := fun _ _ => True) h trivial) fun depth? m₁ h₁ _ _ => ?_
  cases depth? with
  | none => exact raise h₁ _ _
  | some depth =>
    refine bind (getAt? h₁ depth "super") fun superclass? m₂ h₂ _ hsuper => ?_
    cases superclass? with
    | none => exact raise h₂ _ _
    | some superclass =>
      refine bind (getAt? h₂ (depth - 1) "this") fun object? m₃ h₃ hst hthis => ?_
      cases object? with
      | none => exact raise h₃ _ _
      | some object =>
        have hc := (hsuper superclass rfl).mono hst
        have ho := hthis object rfl
        cases superclass with
        | ofClass c =>
          cases object with
          | ofInstance object =>
            cases hfound : c.findMethod? method.text with
            | none =>
              simp only [hfound]
              exact raise h₃ _ _
            | some found =>
              simp only [hfound]
              exact bind (bindMethod h₃ (Class.Every.findMethod? c hc hfound) ho)
                fun f m₄ h₄ _ hf => pure h₄ hf.1
          | _ => exact raise h₃ _ _
        | _ => exact raise h₃ _ _

theorem write (h : m.Under r) (text : String) (line : Nat) :
    Abides r m (Run.write text line) fun _ _ => True := by
  unfold Abides Run.write
  split
  · next ho =>
    split at ho <;> cases ho
    exact ⟨⟨h.of_eq rfl rfl rfl, .refl _⟩, trivial⟩
  · next ho =>
    split at ho <;> cases ho
    exact ⟨h.of_eq rfl rfl rfl, .refl _⟩
  · trivial

theorem callHost (h : m.Under r) (f : Native) {arguments : List Value} (line : Nat)
    (ha : ∀ argument ∈ arguments, argument.Under r m.store) :
    Abides r m (Run.callHost f arguments line) fun value store => value.Under r store := by
  unfold Run.callHost
  refine bind (read (P := fun host? store => store = m.store ∧ ∀ host, host? = some host →
    HostFunction.Under r host) h ⟨rfl, fun host hhost => ?_⟩) fun host? after hm _ hhost => ?_
  · exact h.hostFunctions host (Array.mem_of_getElem? hhost)
  · obtain ⟨hstore, hhost⟩ := hhost
    cases host? with
    | none => exact pure hm trivial
    | some host =>
      cases hcall : host arguments with
      | error message =>
        simp only [hcall]
        exact raise hm _ _
      | ok value =>
        simp only [hcall]
        exact pure hm (hstore ▸ hhost host rfl m.store arguments value ha hcall)

end Run.Abides

/-! ### The regime of all code that is read -/

namespace Stmt

mutual

theorem Ordinary.ownFunctions {s : Stmt} (h : s.Ordinary) :
    ∀ f ∈ s.ownFunctions, OrdinaryFunction f := by
  match s with
  | block body => exact OrdinaryAll.ownFunctionsAll h
  | conditional _ thenBranch none =>
    rw [Stmt.ownFunctions]
    exact Ordinary.ownFunctions h.2.2
  | conditional _ thenBranch (some elseBranch) =>
    rw [Stmt.ownFunctions, List.forall_mem_append]
    exact ⟨Ordinary.ownFunctions h.2.1.2, Ordinary.ownFunctions h.2.2.2⟩
  | whileLoop _ body =>
    rw [Stmt.ownFunctions]
    exact Ordinary.ownFunctions h.2.2
  | function declaration =>
    intro f hf
    rw [List.mem_singleton.1 hf]
    exact h
  | classDef _ _ methods => exact OrdinaryMethods.of_mem h.2
  | expression _ | print _ | var _ _ | ret _ _ => exact nofun

theorem OrdinaryAll.ownFunctionsAll {body : List Stmt} (h : OrdinaryAll body) :
    ∀ f ∈ ownFunctionsAll body, OrdinaryFunction f := by
  match body with
  | [] => exact nofun
  | s :: rest =>
    rw [Stmt.ownFunctionsAll, List.forall_mem_append]
    exact ⟨Ordinary.ownFunctions h.1, OrdinaryAll.ownFunctionsAll h.2⟩

theorem OrdinaryMethods.of_mem {methods : List FunctionDef} (h : OrdinaryMethods methods) :
    ∀ f ∈ methods, OrdinaryFunction f := by
  match methods with
  | [] => exact nofun
  | declaration :: rest =>
    rw [List.forall_mem_cons]
    exact ⟨h.1, OrdinaryMethods.of_mem h.2⟩

end

theorem OrdinaryFunction.body {f : FunctionDef} (h : OrdinaryFunction f) : OrdinaryAll f.body := by
  obtain ⟨name, params, body⟩ := f
  exact h.2.2

end Stmt

namespace Regime

/-- Everything that reading can give may be declared. An initializer that may be called has its
instance in the innermost scope around it. -/
def ofReading : Regime where
  declaration := Stmt.OrdinaryFunction
  callable f s := Stmt.OrdinaryFunction f.declaration ∧
    (f.isInitializer = true →
      0 < f.closure.scope ∧ ∃ object, s.get? f.closure.scope "this" = some (.ofInstance object))
  ordinary h := h
  inside h := h.body.ownFunctionsAll
  code h := h.1
  retained hst h := by
    refine ⟨h.1, fun hinit => ?_⟩
    obtain ⟨hlocal, object, hthis⟩ := h.2 hinit
    exact ⟨hlocal, object, hst.get? _ _ _ hlocal not_ordinary_this hthis⟩
  declared h := ⟨h, nofun⟩
  bound h hlocal hthis := ⟨h, fun _ => ⟨hlocal, _, hthis⟩⟩

/-- Of what reading can give only some functions may be declared, with all the functions that they
declare. Any value of them may be called. -/
def ofCode (permitted : FunctionDef → Prop)
    (inside : ∀ f, permitted f → ∀ g ∈ Stmt.ownFunctionsAll f.body, permitted g) : Regime where
  declaration f := Stmt.OrdinaryFunction f ∧ permitted f
  callable f _ := Stmt.OrdinaryFunction f.declaration ∧ permitted f.declaration
  ordinary h := h.1
  inside h g hg := ⟨h.1.body.ownFunctionsAll g hg, inside _ h.2 g hg⟩
  code h := h
  retained _ h := h
  declared h := h
  bound h _ _ := h

end Regime

end Lox
