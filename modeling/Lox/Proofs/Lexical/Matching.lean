import Lox.Proofs.Evaluation.Soundness
import Lox.Proofs.Lexical

/-!
# Scopes that match maps

Each local variable of the reference semantics is a name in one scope of the machine. `Slots` says
which one. An environment matches a map if the depths that resolution found lead to the scopes of the
variables in the map, whatever else these scopes bind. So it still matches when the scopes gain names.
-/

namespace Lox.Lexical

/-- The scope and the name of each local variable, by the place of the variable. -/
abbrev Slots := List (ScopeId × String)

variable {slots later : Slots} {names : ScopeNames} {env : Environment} {scope : Scope}

theorem getElem?_of_prefix {location : Location} {slot : ScopeId × String} (h : slots <+: later)
    (hs : slots[location]? = some slot) : later[location]? = some slot := by
  obtain ⟨rest, rfl⟩ := h
  obtain ⟨hlt, hget⟩ := List.getElem?_eq_some_iff.1 hs
  rw [List.getElem?_append_left hlt, hs]

/-! ### Scopes -/

/-- The depth of each name leads to the scope of the variable in the map. -/
structure ScopeMatches (slots : Slots) (env : Environment) (names : ScopeNames) (scope : Scope) :
    Prop where
  global : names = [] → env = .global ∧ scope = .global
  inside : names ≠ [] → ∃ locations, scope = .inside locations
  hit : ∀ name depth, names.depth? name = some depth →
    ∃ outer location, env.ancestor? depth = some outer ∧ scope.location? name = some location ∧
      slots[location]? = some (outer.scope, name)
  miss : ∀ name, names.depth? name = none → scope.location? name = none

namespace ScopeMatches

theorem mono (h : ScopeMatches slots env names scope) (hle : slots <+: later) :
    ScopeMatches later env names scope where
  global := h.global
  inside := h.inside
  hit name depth hd := by
    obtain ⟨outer, location, ho, hl, hs⟩ := h.hit name depth hd
    exact ⟨outer, location, ho, hl, getElem?_of_prefix hle hs⟩
  miss := h.miss

theorem start : ScopeMatches slots .global [] .global where
  global _ := ⟨rfl, rfl⟩
  inside h := absurd rfl h
  hit name depth hd := by simp [ScopeNames.depth?] at hd
  miss _ _ := rfl

/-- A new scope inside, which has no variables yet. -/
theorem inner (h : ScopeMatches slots env names scope) (id : ScopeId) :
    ScopeMatches slots (env.inner id) ([] :: names) (.inside scope.locations) where
  global hn := by cases hn
  inside _ := ⟨_, rfl⟩
  hit name depth hd := by
    rw [ScopeNames.depth?_cons_of_not_mem List.not_mem_nil] at hd
    obtain ⟨depth, houter, rfl⟩ := Option.map_eq_some_iff.1 hd
    obtain ⟨outer, location, ho, hl, hs⟩ := h.hit name depth houter
    refine ⟨outer, location, ?_, hl, hs⟩
    rw [Environment.ancestor?_eq_some_iff] at ho ⊢
    exact ho
  miss name hd := by
    rw [ScopeNames.depth?_cons_of_not_mem List.not_mem_nil, Option.map_eq_none_iff] at hd
    exact h.miss name hd

theorem location?_extend (scope : Scope) (name key : String) (location : Location) :
    (scope.extend name location).location? key =
      if key = name then some location else scope.location? key := by
  by_cases hk : key = name
  · simp [Scope.extend, Scope.location?, Scope.locations, hk]
  · simp [Scope.extend, Scope.location?, Scope.locations, List.lookup_cons, hk,
      beq_eq_false_iff_ne.2 hk]

/-- One more variable in the innermost scope. -/
theorem declare (h : ScopeMatches slots env names scope) (hn : names ≠ []) {name : String}
    {location : Location} (hs : slots[location]? = some (env.scope, name)) :
    ScopeMatches slots env (names.declare name) (scope.extend name location) where
  global he := absurd he (ScopeNames.declare_ne_nil hn)
  inside _ := ⟨_, rfl⟩
  hit key depth hd := by
    rw [location?_extend]
    by_cases hk : key = name
    · subst hk
      rw [ScopeNames.depth?_declare_self hn] at hd
      cases hd
      exact ⟨env, location, env.ancestor?_zero, if_pos rfl, hs⟩
    · rw [ScopeNames.depth?_declare_of_ne hk] at hd
      rw [if_neg hk]
      exact h.hit key depth hd
  miss key hd := by
    have hk : key ≠ name := by
      rintro rfl
      rw [ScopeNames.depth?_declare_self hn] at hd
      cases hd
    rw [ScopeNames.depth?_declare_of_ne hk] at hd
    rw [location?_extend, if_neg hk]
    exact h.miss key hd

end ScopeMatches

/-! ### Values -/

/-- The same class, with methods that `P` relates. -/
inductive ClassMatches (P : Lox.Function → Function → Prop) : Lox.Class → Class → Prop where
  | base {id name a b} (methods : ∀ key, Option.Rel P (a.get? key) (b.get? key)) :
      ClassMatches P ⟨id, name, none, a⟩ ⟨id, name, none, b⟩
  | derived {id name c d a b} (superclass : ClassMatches P c d)
      (methods : ∀ key, Option.Rel P (a.get? key) (b.get? key)) :
      ClassMatches P ⟨id, name, some c, a⟩ ⟨id, name, some d, b⟩

structure InstanceMatches (P : Lox.Function → Function → Prop) (a : Lox.Instance) (b : Instance) :
    Prop where
  id : a.id = b.id
  ofClass : ClassMatches P a.ofClass b.ofClass

/-- The same value, with functions that `P` relates and methods that `Q` relates. -/
inductive ValueMatchesBy (P Q : Lox.Function → Function → Prop) : Lox.Value → Value → Prop where
  | nil : ValueMatchesBy P Q .nil .nil
  | bool (value) : ValueMatchesBy P Q (.bool value) (.bool value)
  | number (value) : ValueMatchesBy P Q (.number value) (.number value)
  | string (value) : ValueMatchesBy P Q (.string value) (.string value)
  | native {f : Native} (clock : f.id = 0) : ValueMatchesBy P Q (.native f) (.native f)
  | function {f g} (h : P f g) : ValueMatchesBy P Q (.function f) (.function g)
  | ofClass {c d} (h : ClassMatches Q c d) : ValueMatchesBy P Q (.ofClass c) (.ofClass d)
  | ofInstance {a b} (h : InstanceMatches Q a b) : ValueMatchesBy P Q (.ofInstance a) (.ofInstance b)

theorem optionRel_mono {α β : Type} {P Q : α → β → Prop} (hPQ : ∀ a b, P a b → Q a b)
    {a : Option α} {b : Option β} (h : Option.Rel P a b) : Option.Rel Q a b := by
  cases h with
  | none => exact .none
  | some h => exact .some (hPQ _ _ h)

namespace ClassMatches

variable {P Q : Lox.Function → Function → Prop} {c : Lox.Class} {d : Class}

theorem mono (hPQ : ∀ f g, P f g → Q f g) (h : ClassMatches P c d) : ClassMatches Q c d := by
  induction h with
  | base methods => exact .base fun key => optionRel_mono hPQ (methods key)
  | derived _ methods ih => exact .derived ih fun key => optionRel_mono hPQ (methods key)

theorem findMethod? (h : ClassMatches P c d) (name : String) :
    Option.Rel P (c.findMethod? name) (d.findMethod? name) := by
  induction h with
  | base methods => exact methods name
  | @derived id key c d a b _ methods ih =>
    rw [Lox.Class.findMethod?, Class.findMethod?]
    have hm := methods name
    revert hm
    generalize a.get? name = f
    generalize b.get? name = g
    intro hm
    cases hm with
    | none => exact ih
    | some hm => exact .some hm

theorem id_eq (h : ClassMatches P c d) : c.id = d.id := by
  cases h <;> rfl

theorem name_eq (h : ClassMatches P c d) : c.name = d.name := by
  cases h <;> rfl

theorem arity_eq (hP : ∀ f g, P f g → f.declaration = g.declaration) (h : ClassMatches P c d) :
    c.arity = d.arity := by
  have hinit := h.findMethod? initializerName
  rw [Lox.Class.arity, Class.arity, Lox.Class.initializer?, Class.initializer?]
  revert hinit
  generalize c.findMethod? initializerName = f
  generalize d.findMethod? initializerName = g
  intro hinit
  cases hinit with
  | none => rfl
  | some h =>
    show Lox.Function.arity _ = Function.arity _
    rw [Lox.Function.arity, Function.arity, hP _ _ h]

end ClassMatches

theorem ValueMatchesBy.mono {P P' Q Q' : Lox.Function → Function → Prop} {a : Lox.Value} {b : Value}
    (hP : ∀ f g, P f g → P' f g) (hQ : ∀ f g, Q f g → Q' f g) (h : ValueMatchesBy P Q a b) :
    ValueMatchesBy P' Q' a b := by
  cases h with
  | nil => exact .nil
  | bool => exact .bool _
  | number => exact .number _
  | string => exact .string _
  | native clock => exact .native clock
  | function h => exact .function (hP _ _ h)
  | ofClass h => exact .ofClass (h.mono hQ)
  | ofInstance h => exact .ofInstance ⟨h.id, h.ofClass.mono hQ⟩

section

variable (depths : Depths) (limit : NodeId) (slots : Slots)

/-- A function that can be called. -/
structure FunctionMatches (f : Lox.Function) (g : Function) : Prop where
  id : f.id = g.id
  declaration : f.declaration = g.declaration
  isInitializer : f.isInitializer = g.isInitializer
  closure : ∃ names, ScopeMatches slots f.closure names g.captured ∧
    f.declaration.Coded depths limit names ∧
    (f.isInitializer = true → ∃ outer, names = ["this"] :: outer)

/-- A method that has yet to be bound to an instance. -/
structure MethodMatches (f : Lox.Function) (g : Function) : Prop where
  declaration : f.declaration = g.declaration
  isInitializer : f.isInitializer = g.isInitializer
  closure : ∃ names, ScopeMatches slots f.closure names g.captured ∧
    f.declaration.Coded depths limit (["this"] :: names)

/-- The same value, with functions whose environments match. -/
abbrev ValueMatches : Lox.Value → Value → Prop :=
  ValueMatchesBy (FunctionMatches depths limit slots) (MethodMatches depths limit slots)

end

variable {depths : Depths} {limit : NodeId}

theorem FunctionMatches.mono {f : Lox.Function} {g : Function}
    (h : FunctionMatches depths limit slots f g) (hle : slots <+: later) :
    FunctionMatches depths limit later f g := by
  obtain ⟨names, hscope, hrest⟩ := h.closure
  exact ⟨h.id, h.declaration, h.isInitializer, names, hscope.mono hle, hrest⟩

theorem MethodMatches.mono {f : Lox.Function} {g : Function}
    (h : MethodMatches depths limit slots f g) (hle : slots <+: later) :
    MethodMatches depths limit later f g := by
  obtain ⟨names, hscope, hrest⟩ := h.closure
  exact ⟨h.declaration, h.isInitializer, names, hscope.mono hle, hrest⟩

theorem ClassMatches.grow {c : Lox.Class} {d : Class}
    (h : ClassMatches (MethodMatches depths limit slots) c d) (hle : slots <+: later) :
    ClassMatches (MethodMatches depths limit later) c d :=
  h.mono fun _ _ h => h.mono hle

namespace ValueMatches

variable {a : Lox.Value} {b : Value}

theorem grow (h : ValueMatches depths limit slots a b) (hle : slots <+: later) :
    ValueMatches depths limit later a b :=
  ValueMatchesBy.mono (fun _ _ h => h.mono hle) (fun _ _ h => h.mono hle) h

theorem content_eq (h : ValueMatches depths limit slots a b) : b.content = a.content := by
  cases h with
  | nil | bool | number | string | native => rfl
  | function h => rw [Value.content, Lox.Value.content, Lox.Function.name, h.id, h.declaration]
  | ofClass h => rw [Value.content, Lox.Value.content, h.id_eq, h.name_eq]
  | ofInstance h => rw [Value.content, Lox.Value.content, h.id, h.ofClass.name_eq]

theorem ofPlain {value : Lox.Value} (h : value.IsPlain) :
    ValueMatches depths limit slots value (.ofPlain value) := by
  cases value with
  | nil => exact .nil
  | bool => exact .bool _
  | number => exact .number _
  | string => exact .string _
  | _ => exact h.elim

theorem arity?_eq (h : ValueMatches depths limit slots a b) : a.arity? = b.arity? := by
  cases h with
  | function h =>
    rw [Lox.Value.arity?, Value.arity?, Lox.Function.arity, Function.arity, h.declaration]
  | ofClass h =>
    rw [Lox.Value.arity?, Value.arity?, h.arity_eq fun _ _ h => h.declaration]
  | _ => rfl

end ValueMatches

end Lox.Lexical
