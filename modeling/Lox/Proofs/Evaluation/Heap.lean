import Mathlib.Data.List.Forall2
import Lox.Machine
import Lox.Proofs.Resolution.Placement

/-!
# Sound heaps

In a sound heap the environment of every function has the scopes that resolution saw around the
function, and each of them binds the names that it had there. Scopes gain names and lose none, so
this stays true while the heap grows.

## Implementation notes

A method in the table of its class waits for the scope of `this`, which is made anew whenever the
method is bound. So its code is placed one scope further in than its environment.
-/

namespace Lox

/-- A value that this name may have: `this` is an instance and `super` is a class. -/
structure Suits (name : String) (value : Value) : Prop where
  this : name = "this" → ∃ object, value = .ofInstance object
  super : name = "super" → ∃ c, value = .ofClass c

theorem OrdinaryName.suits {name : String} (h : OrdinaryName name) (value : Value) :
    Suits name value := ⟨fun he => absurd he h.1, fun he => absurd he h.2⟩

/-! ### Growing stores -/

/-- All scopes and all names are still there, and `this` and `super` have values that suit them. -/
structure Store.Extends (s t : Store Value) : Prop where
  size : s.size ≤ t.size
  get? : ∀ scope name value, s.get? scope name = some value →
    ∃ now, t.get? scope name = some now ∧ (Suits name value → Suits name now)

/-- Whatever is read after writing was written or was there before. -/
theorem Store.get?_of_put {s : Store Value} {scope other : ScopeId} {name key : String}
    {value found : Value} (h : (s.put scope name value).get? other key = some found) :
    found = value ∨ s.get? other key = some found := by
  by_cases hs : scope < s.size
  · rw [Store.get?_put s other name key value hs] at h
    split at h
    · exact .inl (Option.some.inj h).symm
    · exact .inr h
  · by_cases ho : other = scope
    · subst ho
      have hnone : s.scopes[other]? = none := Array.getElem?_eq_none (Nat.not_lt.1 hs)
      simp only [Store.get?, Store.scope, Store.put, Array.getElem?_modify, hnone] at h
      exact .inr (by simpa [Store.get?, Store.scope, hnone] using h)
    · rw [Store.get?, Store.scope_put_of_ne s name value ho] at h
      exact .inr h

namespace Store.Extends

variable {s t u : Store Value}

theorem refl (s : Store Value) : s.Extends s :=
  ⟨Nat.le_refl _, fun _ _ value h => ⟨value, h, id⟩⟩

theorem trans (h : s.Extends t) (k : t.Extends u) : s.Extends u := by
  refine ⟨Nat.le_trans h.size k.size, fun scope name value hv => ?_⟩
  obtain ⟨now, hnow, hsuits⟩ := h.get? scope name value hv
  obtain ⟨later, hlater, hsuits'⟩ := k.get? scope name now hnow
  exact ⟨later, hlater, hsuits' ∘ hsuits⟩

theorem put {scope : ScopeId} {name : String} (value : Value) (hs : scope < s.size)
    (hname : OrdinaryName name) : s.Extends (s.put scope name value) := by
  refine ⟨Nat.le_of_eq (Store.size_put s scope name value).symm, fun other key old hold => ?_⟩
  rw [Store.get?_put s other name key value hs]
  split
  · next h => exact ⟨value, rfl, fun _ => h.2 ▸ hname.suits value⟩
  · exact ⟨old, hold, id⟩

theorem get?_lt {scope : ScopeId} {name : String} {value : Value}
    (h : s.get? scope name = some value) : scope < s.size := by
  by_contra hlt
  have hnone : s.scope scope = ∅ := by
    unfold Store.scope
    rw [Array.getElem?_eq_none (Nat.not_lt.1 hlt)]
    rfl
  rw [Store.get?, hnone] at h
  cases h

theorem push (s : Store Value) (bindings : Table Value) : s.Extends (s.push bindings) := by
  refine ⟨by rw [Store.size_push]; omega, fun scope name value h => ⟨value, ?_, id⟩⟩
  rw [Store.get?_push_of_lt s bindings name (get?_lt h)]
  exact h

end Store.Extends

/-- What a store with one more scope binds. -/
theorem Store.get?_of_push {s : Store Value} {bindings : Table Value} {scope : ScopeId}
    {name : String} {value : Value} (h : (s.push bindings).get? scope name = some value) :
    s.get? scope name = some value ∨ bindings.get? name = some value := by
  have hlt := Store.Extends.get?_lt h
  rw [Store.size_push] at hlt
  rcases Nat.lt_or_eq_of_le (Nat.lt_succ_iff.1 hlt) with hlt | rfl
  · rw [Store.get?_push_of_lt s bindings name hlt] at h
    exact .inl h
  · rw [Store.get?_push_size] at h
    exact .inr h

/-! ### Environments -/

/-- A local scope that binds all these names. -/
structure Store.Binds (s : Store Value) (scope : ScopeId) (names : List String) : Prop where
  size : scope < s.size
  get? : ∀ name ∈ names, ∃ value, s.get? scope name = some value ∧ Suits name value

/-- An environment with a scope for each list of names, and the global scope around them. -/
def Environment.Holds (env : Environment) (s : Store Value) (names : ScopeNames) : Prop :=
  0 < s.size ∧ ∃ scopes : List ScopeId, env.chain = scopes ++ [0] ∧
    List.Forall₂ s.Binds scopes names

namespace Environment.Holds

variable {env : Environment} {s t : Store Value} {names : ScopeNames} {name : String}

theorem mono (h : env.Holds s names) (hst : s.Extends t) : env.Holds t names := by
  obtain ⟨hpos, scopes, hchain, hbinds⟩ := h
  refine ⟨Nat.lt_of_lt_of_le hpos hst.size, scopes, hchain, hbinds.imp fun scope list hb => ?_⟩
  refine ⟨Nat.lt_of_lt_of_le hb.size hst.size, fun name hname => ?_⟩
  obtain ⟨value, hvalue, hsuits⟩ := hb.get? name hname
  obtain ⟨now, hnow, hsuits'⟩ := hst.get? scope name value hvalue
  exact ⟨now, hnow, hsuits' hsuits⟩

theorem global (h : 0 < s.size) : Environment.global.Holds s [] := ⟨h, [], rfl, .nil⟩

theorem eq_global (h : env.Holds s []) : env = Environment.global := by
  obtain ⟨-, scopes, hchain, hbinds⟩ := h
  cases hbinds
  obtain ⟨scope, enclosing⟩ := env
  obtain ⟨rfl, rfl⟩ := List.cons.inj hchain
  rfl

/-- At the depth of a name there is a scope that binds it. -/
theorem ancestor? (h : env.Holds s names) {depth : Nat} (hd : names.depth? name = some depth) :
    ∃ outer value, env.ancestor? depth = some outer ∧ s.get? outer.scope name = some value ∧
      Suits name value := by
  obtain ⟨-, scopes, hchain, hbinds⟩ := h
  obtain ⟨list, hlist, hmem⟩ := ScopeNames.getElem?_of_depth? hd
  obtain ⟨hlt, hget⟩ := List.getElem?_eq_some_iff.1 hlist
  have hlt' : depth < scopes.length := hbinds.length_eq ▸ hlt
  have hb : s.Binds scopes[depth] list := hget ▸ hbinds.get hlt' hlt
  obtain ⟨value, hvalue, hsuits⟩ := hb.get? name hmem
  refine ⟨⟨scopes[depth], scopes.drop (depth + 1) ++ [0]⟩, value, ?_, hvalue, hsuits⟩
  rw [Environment.ancestor?_eq_some_iff, hchain, List.drop_append_of_le_length (by omega),
    List.drop_eq_getElem_cons hlt']
  rfl

theorem scope_lt (h : env.Holds s names) : env.scope < s.size := by
  obtain ⟨hpos, scopes, hchain, hbinds⟩ := h
  obtain ⟨scope, enclosing⟩ := env
  cases hbinds with
  | nil =>
    obtain ⟨rfl, -⟩ := List.cons.inj hchain
    exact hpos
  | cons hb _ =>
    obtain ⟨rfl, -⟩ := List.cons.inj hchain
    exact hb.size

/-- A scope further in that binds its names. -/
theorem inner (h : env.Holds s names) {scope : ScopeId} {list : List String}
    (hb : s.Binds scope list) : (env.inner scope).Holds s (list :: names) := by
  obtain ⟨hpos, scopes, hchain, hbinds⟩ := h
  refine ⟨hpos, scope :: scopes, ?_, .cons hb hbinds⟩
  show scope :: env.chain = _
  rw [hchain]
  rfl

/-- After a definition in the innermost scope, this scope binds the name as well. -/
theorem define (h : env.Holds s names) (hname : OrdinaryName name) (value : Value) :
    env.Holds (env.define s name value) (names.declare name) := by
  have hext : s.Extends (env.define s name value) := .put value h.scope_lt hname
  cases names with
  | nil => exact h.mono hext
  | cons list outer =>
    obtain ⟨hpos, scopes, hchain, hbinds⟩ := h.mono hext
    have hlt := h.scope_lt
    cases hbinds with
    | @cons scope _ rest _ hb hrest =>
      refine ⟨hpos, scope :: rest, hchain, .cons ⟨hb.size, ?_⟩ hrest⟩
      have hscope : env.scope = scope := (List.cons.inj hchain).1
      intro key hkey
      rcases List.mem_cons.1 hkey with rfl | hkey
      · refine ⟨value, ?_, hname.suits value⟩
        rw [Environment.define, Store.get?_put s _ _ _ _ hlt, if_pos ⟨hscope.symm, rfl⟩]
      · exact hb.get? key hkey

end Environment.Holds

/-! ### Values -/

/-- All functions in a table have a property. -/
def Table.Every (P : Function → Prop) (methods : Table Function) : Prop :=
  ∀ name f, methods.get? name = some f → P f

/-- All methods of a class and of the classes above have a property. -/
def Class.Every (P : Function → Prop) : Class → Prop
  | ⟨_, _, none, methods⟩ => methods.Every P
  | ⟨_, _, some superclass, methods⟩ => methods.Every P ∧ superclass.Every P

/-- The functions of a value, and the methods of its class, have these properties. -/
def Value.Every (P Q : Function → Prop) : Value → Prop
  | .function f => P f
  | .ofClass c => c.Every Q
  | .ofInstance object => object.ofClass.Every Q
  | _ => True

theorem Class.Every.mono {P Q : Function → Prop} (hPQ : ∀ f, P f → Q f) (c : Class)
    (h : c.Every P) : c.Every Q := by
  match c with
  | ⟨_, _, none, methods⟩ => exact fun name f hf => hPQ f (h name f hf)
  | ⟨_, _, some superclass, methods⟩ =>
    exact ⟨fun name f hf => hPQ f (h.1 name f hf), mono hPQ superclass h.2⟩

theorem Value.Every.mono {P P' Q Q' : Function → Prop} (hP : ∀ f, P f → P' f)
    (hQ : ∀ f, Q f → Q' f) {value : Value} (h : value.Every P Q) : value.Every P' Q' := by
  cases value with
  | function f => exact hP f h
  | ofClass c => exact Class.Every.mono hQ c h
  | ofInstance object => exact Class.Every.mono hQ object.ofClass h
  | _ => trivial

theorem Class.Every.findMethod? {P : Function → Prop} {name : String} {f : Function} (c : Class)
    (h : c.Every P) (hf : c.findMethod? name = some f) : P f := by
  match c with
  | ⟨_, _, none, methods⟩ => exact h name f hf
  | ⟨_, _, some superclass, methods⟩ =>
    rw [Class.findMethod?, Option.or_eq_some_iff] at hf
    rcases hf with hf | ⟨-, hf⟩
    · exact h.1 name f hf
    · exact findMethod? superclass h.2 hf

/-- Code that was placed among these scopes, with node numbers below `limit`. -/
structure FunctionDef.Coded (depths : Depths) (limit : NodeId) (names : ScopeNames)
    (declaration : FunctionDef) : Prop where
  placed : Stmt.PlacedFunction depths names declaration
  selfAssignFree : Stmt.SelfAssignFreeFunction declaration
  nodes : ∀ id ∈ Stmt.functionNodes declaration, id < limit

section Soundness

variable (depths : Depths) (limit : NodeId) (s : Store Value)

/-- A function that can be called. An initializer finds its instance in the innermost scope of its
environment. -/
def Function.Callable (f : Function) : Prop :=
  ∃ names, f.closure.Holds s names ∧ f.declaration.Coded depths limit names ∧
    (f.isInitializer = true → ∃ outer, names = ["this"] :: outer)

/-- A method that has yet to be bound to an instance. -/
def Function.Bindable (f : Function) : Prop :=
  ∃ names, f.closure.Holds s names ∧ f.declaration.Coded depths limit (["this"] :: names)

/-- All functions in a value have sound environments. -/
def Value.Sound (value : Value) : Prop :=
  value.Every (Function.Callable depths limit s) (Function.Bindable depths limit s)

end Soundness

/-- All values in a store have sound environments in the store `s`. -/
def Store.Sound (depths : Depths) (limit : NodeId) (values s : Store Value) : Prop :=
  ∀ scope name value, values.get? scope name = some value → value.Sound depths limit s

section Growth

variable {depths : Depths} {limit : NodeId} {s t : Store Value}

theorem Function.Callable.mono {f : Function} (h : f.Callable depths limit s)
    (hst : s.Extends t) : f.Callable depths limit t := by
  obtain ⟨names, hholds, hrest⟩ := h
  exact ⟨names, hholds.mono hst, hrest⟩

theorem Function.Bindable.mono {f : Function} (h : f.Bindable depths limit s)
    (hst : s.Extends t) : f.Bindable depths limit t := by
  obtain ⟨names, hholds, hrest⟩ := h
  exact ⟨names, hholds.mono hst, hrest⟩

theorem Value.Sound.mono {value : Value} (h : value.Sound depths limit s) (hst : s.Extends t) :
    value.Sound depths limit t :=
  Value.Every.mono (fun _ hf => hf.mono hst) (fun _ hf => hf.mono hst) h

theorem Store.Sound.mono {values : Store Value} (h : values.Sound depths limit s)
    (hst : s.Extends t) : values.Sound depths limit t :=
  fun scope name value hv => (h scope name value hv).mono hst

theorem Store.Sound.put {values : Store Value} (h : values.Sound depths limit s)
    {scope : ScopeId} {name : String} {value : Value} (hv : value.Sound depths limit s) :
    (values.put scope name value).Sound depths limit s := by
  intro other key found hfound
  rcases Store.get?_of_put hfound with rfl | hold
  · exact hv
  · exact h other key found hold

theorem Store.Sound.push {values : Store Value} (h : values.Sound depths limit s)
    {bindings : Table Value} (hb : ∀ name value, bindings.get? name = some value →
      value.Sound depths limit s) :
    (values.push bindings).Sound depths limit s := by
  intro scope name value hv
  rcases Store.get?_of_push hv with hold | hnew
  · exact h scope name value hold
  · exact hb name value hnew

end Growth

end Lox
