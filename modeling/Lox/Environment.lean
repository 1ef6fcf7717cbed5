import Lox.Table

/-!
# Environments

Scopes live in a store, so that a closure and the code around it see the same variables. An
environment is a scope with those around it, innermost first; it never changes, only the scopes do.

Names are found in two ways: searched from the inside out, or read in the scope that lies a given
number of scopes further out.

## Implementation notes

The store is generic in the values that its scopes hold, because functions are values and hold
environments.
-/

namespace Lox

/-- The place of a scope in its store. -/
abbrev ScopeId := Nat

/-- A scope and the scopes around it, from the inside out. -/
structure Environment where
  scope : ScopeId
  enclosing : List ScopeId
deriving DecidableEq

/-- The scopes of a run, by place. -/
structure Store (α : Type) where
  scopes : Array (Table α)

namespace Store

variable {α : Type}

def empty : Store α := ⟨#[]⟩

/-- The bindings of one scope. -/
def scope (s : Store α) (scope : ScopeId) : Table α := s.scopes[scope]?.getD ∅

/-- The value of a name in one scope. -/
def get? (s : Store α) (scope : ScopeId) (name : String) : Option α := (s.scope scope).get? name

/-- Whether a scope binds a name. -/
def binds (s : Store α) (scope : ScopeId) (name : String) : Bool := (s.get? scope name).isSome

/-- Binds a name in one scope, or changes its value there. -/
def put (s : Store α) (scope : ScopeId) (name : String) (value : α) : Store α :=
  { s with scopes := s.scopes.modify scope (·.insert name value) }

/-- A store with one more scope, in the next place. -/
def push (s : Store α) (bindings : Table α) : Store α :=
  { s with scopes := s.scopes.push bindings }

/-- The place of the next scope. -/
def size (s : Store α) : Nat := s.scopes.size

theorem size_push (s : Store α) (bindings : Table α) : (s.push bindings).size = s.size + 1 := by
  simp [push, size]

theorem size_lt_push (s : Store α) (bindings : Table α) : s.size < (s.push bindings).size := by
  rw [size_push]
  exact Nat.lt_succ_self _

theorem size_put (s : Store α) (scope : ScopeId) (name : String) (value : α) :
    (s.put scope name value).size = s.size := by
  simp [put, size]

theorem scope_push_of_lt (s : Store α) (bindings : Table α) {id : ScopeId} (h : id < s.size) :
    (s.push bindings).scope id = s.scope id := by
  simp only [size] at h
  simp [push, scope, Array.getElem?_push, Nat.ne_of_lt h]

theorem scope_push_size (s : Store α) (bindings : Table α) :
    (s.push bindings).scope s.size = bindings := by
  simp [push, scope, size]

theorem get?_push_of_lt (s : Store α) (bindings : Table α) {id : ScopeId} (name : String)
    (h : id < s.size) : (s.push bindings).get? id name = s.get? id name := by
  rw [get?, scope_push_of_lt s bindings h, get?]

theorem get?_push_size (s : Store α) (bindings : Table α) (name : String) :
    (s.push bindings).get? s.size name = bindings.get? name := by
  rw [get?, scope_push_size]

theorem scope_put_self (s : Store α) {id : ScopeId} (name : String) (value : α) (h : id < s.size) :
    (s.put id name value).scope id = (s.scope id).insert name value := by
  simp only [size] at h
  simp [put, scope, h, Array.getElem_modify]

theorem scope_put_of_ne (s : Store α) {id other : ScopeId} (name : String) (value : α)
    (h : other ≠ id) : (s.put id name value).scope other = s.scope other := by
  simp [put, scope, Array.getElem?_modify, Ne.symm h]

/-- Writing changes the one name in the one scope. -/
theorem get?_put (s : Store α) {id : ScopeId} (other : ScopeId) (name key : String) (value : α)
    (h : id < s.size) :
    (s.put id name value).get? other key =
      if other = id ∧ key = name then some value else s.get? other key := by
  by_cases ho : other = id
  · subst ho
    simp [get?, scope_put_self s name value h, Table.get?_insert]
  · simp [get?, scope_put_of_ne s name value ho, ho]

end Store

namespace Environment

variable {α : Type}

/-- The environment of the first scope of a store. -/
def global : Environment := ⟨0, []⟩

/-- All scopes of an environment, from the inside out. -/
def chain (env : Environment) : List ScopeId := env.scope :: env.enclosing

/-- The environment inside `env` whose scope has the place `scope`. -/
def inner (env : Environment) (scope : ScopeId) : Environment := ⟨scope, env.chain⟩

/-- The environment with this chain, which has to have a scope. -/
def ofChain? : List ScopeId → Option Environment
  | [] => none
  | scope :: enclosing => some ⟨scope, enclosing⟩

/-- The environment `depth` scopes further out. -/
def ancestor? (env : Environment) (depth : Nat) : Option Environment :=
  ofChain? (env.chain.drop depth)

/-- Binds a name in the innermost scope. -/
def define (env : Environment) (s : Store α) (name : String) (value : α) : Store α :=
  s.put env.scope name value

/-- The innermost scope that binds a name. -/
def scopeOf? (env : Environment) (s : Store α) (name : String) : Option ScopeId :=
  env.chain.find? (s.binds · name)

/-- The value of the innermost binding of a name. -/
def get? (env : Environment) (s : Store α) (name : String) : Option α :=
  env.chain.findSome? (s.get? · name)

/-- Changes the innermost binding of a name; there has to be one. -/
def assign? (env : Environment) (s : Store α) (name : String) (value : α) : Option (Store α) :=
  (env.scopeOf? s name).map fun scope => s.put scope name value

/-- The value of a name in the scope `depth` scopes further out, which is not searched further. -/
def getAt? (env : Environment) (s : Store α) (depth : Nat) (name : String) : Option α :=
  (env.ancestor? depth).bind fun outer => s.get? outer.scope name

/-- Binds a name in the scope `depth` scopes further out. -/
def assignAt? (env : Environment) (s : Store α) (depth : Nat) (name : String) (value : α) :
    Option (Store α) :=
  (env.ancestor? depth).map fun outer => s.put outer.scope name value

theorem ancestor?_zero (env : Environment) : env.ancestor? 0 = some env := rfl

theorem ofChain?_eq_some_iff {scopes : List ScopeId} {env : Environment} :
    ofChain? scopes = some env ↔ scopes = env.chain := by
  cases scopes with
  | nil => simp [ofChain?, chain]
  | cons scope enclosing =>
    obtain ⟨s, e⟩ := env
    simp [ofChain?, chain]

/-- The scopes of an ancestor are those of the environment but for the first few. -/
theorem ancestor?_eq_some_iff {env outer : Environment} {depth : Nat} :
    env.ancestor? depth = some outer ↔ env.chain.drop depth = outer.chain :=
  ofChain?_eq_some_iff

/-- The innermost scope of an ancestor stands in the chain at its depth. -/
theorem ancestor?_map_scope (env : Environment) (depth : Nat) :
    (env.ancestor? depth).map scope = env.chain[depth]? := by
  rw [ancestor?, ← List.head?_drop]
  cases env.chain.drop depth <;> rfl

/-- There is an ancestor at each depth below the length of the chain, and at no other. -/
theorem ancestor?_eq_none_iff {env : Environment} {depth : Nat} :
    env.ancestor? depth = none ↔ env.chain.length ≤ depth := by
  rw [← List.drop_eq_nil_iff, ancestor?]
  cases env.chain.drop depth <;> simp [ofChain?]

end Environment

end Lox
