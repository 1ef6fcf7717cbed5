import Mathlib.Order.Bounds.Basic
import Lox.Proofs.Evaluation.Steps

/-!
# Forests of environments

Environments share scopes: any number of them may be opened inside one, and a scope is written through
each of them. Searching a name from the inside out comes to the same as reading it at the depth of the
nearest scope that binds it, and a write is seen where its slot is the nearest one, and nowhere else.

## Implementation notes

A write may make a scope bind a name that it did not bind before, and so hide a binding from environments
that lie further in. So the nearest scope that the laws of writing speak of is the nearest one afterwards.
-/

namespace Lox

open Procedure Run

variable {α : Type}

/-! ### Nearest scopes -/

namespace Environment

/-- The scope `depth` scopes further out is there and binds the name. -/
def BindsAt (env : Environment) (s : Store α) (depth : Nat) (name : String) : Prop :=
  ∃ outer, env.ancestor? depth = some outer ∧ s.binds outer.scope name = true

/-- The scope binds the name, and no scope of the environment further in does. -/
def Nearest (env : Environment) (s : Store α) (name : String) (scope : ScopeId) : Prop :=
  ∃ depth outer, IsLeast {d | env.BindsAt s d name} depth ∧ env.ancestor? depth = some outer ∧
    outer.scope = scope

variable {env : Environment} {s : Store α} {name : String} {depth : Nat} {scope : ScopeId}

theorem bindsAt_iff :
    env.BindsAt s depth name ↔ ∃ scope, env.chain[depth]? = some scope ∧ s.binds scope name = true := by
  rw [← ancestor?_map_scope]
  constructor
  · rintro ⟨outer, hancestor, hbinds⟩
    exact ⟨outer.scope, by rw [hancestor]; rfl, hbinds⟩
  · rintro ⟨scope, hscope, hbinds⟩
    obtain ⟨outer, hancestor, rfl⟩ := Option.map_eq_some_iff.1 hscope
    exact ⟨outer, hancestor, hbinds⟩

/-- The scope that a search comes to is the one at the least depth. -/
theorem scopeOf?_eq_some_iff : env.scopeOf? s name = some scope ↔
    ∃ depth, IsLeast {d | env.BindsAt s d name} depth ∧ env.chain[depth]? = some scope := by
  rw [scopeOf?, List.find?_eq_some_iff_getElem]
  constructor
  · rintro ⟨hbinds, depth, hlt, hscope, hinner⟩
    have hat : env.chain[depth]? = some scope := List.getElem?_eq_some_iff.2 ⟨hlt, hscope⟩
    refine ⟨depth, ⟨bindsAt_iff.2 ⟨scope, hat, hbinds⟩, ?_⟩, hat⟩
    intro d hd
    obtain ⟨other, hother, hbindsOther⟩ := bindsAt_iff.1 hd
    by_contra hless
    have hnot := hinner d (Nat.lt_of_not_le hless)
    rw [(List.getElem?_eq_some_iff.1 hother).2, hbindsOther] at hnot
    cases hnot
  · rintro ⟨depth, ⟨hbinds, hleast⟩, hat⟩
    obtain ⟨hlt, hscope⟩ := List.getElem?_eq_some_iff.1 hat
    obtain ⟨found, hfound, hbinds⟩ := bindsAt_iff.1 hbinds
    obtain rfl : scope = found := Option.some.inj (hat.symm.trans hfound)
    refine ⟨hbinds, depth, hlt, hscope, fun d hd => ?_⟩
    rw [Bool.not_eq_true']
    apply Bool.eq_false_iff.2
    intro hbound
    have hd' : env.BindsAt s d name :=
      bindsAt_iff.2 ⟨_, List.getElem?_eq_getElem (Nat.lt_trans hd hlt), hbound⟩
    exact Nat.not_lt.2 (hleast hd') hd

theorem nearest_iff : env.Nearest s name scope ↔ env.scopeOf? s name = some scope := by
  rw [scopeOf?_eq_some_iff]
  constructor
  · rintro ⟨depth, outer, hleast, hancestor, rfl⟩
    exact ⟨depth, hleast, by rw [← ancestor?_map_scope, hancestor]; rfl⟩
  · rintro ⟨depth, hleast, hat⟩
    rw [← ancestor?_map_scope] at hat
    obtain ⟨outer, hancestor, hscope⟩ := Option.map_eq_some_iff.1 hat
    exact ⟨depth, outer, hleast, hancestor, hscope⟩

instance decidableNearest : Decidable (env.Nearest s name scope) :=
  decidable_of_iff (env.scopeOf? s name = some scope) nearest_iff.symm

theorem scopeOf?_eq_none_iff : env.scopeOf? s name = none ↔ ∀ depth, ¬ env.BindsAt s depth name := by
  rw [scopeOf?, List.find?_eq_none]
  constructor
  · intro hnone depth hbinds
    obtain ⟨scope, hat, hbound⟩ := bindsAt_iff.1 hbinds
    exact hnone scope (List.mem_of_getElem? hat) hbound
  · intro hnone scope hmem hbound
    obtain ⟨depth, hat⟩ := List.getElem?_of_mem hmem
    exact hnone depth (bindsAt_iff.2 ⟨scope, hat, hbound⟩)

/-- A search gives what the scope that it comes to binds the name to. -/
theorem get?_eq_bind (env : Environment) (s : Store α) (name : String) :
    env.get? s name = (env.scopeOf? s name).bind (s.get? · name) := by
  rw [get?, scopeOf?]
  induction env.chain with
  | nil => rfl
  | cons scope outer ih =>
    rw [List.findSome?_cons, List.find?_cons, Store.binds]
    cases hvalue : s.get? scope name with
    | none => exact ih
    | some value => exact hvalue.symm

/-! ### Searching and addressing -/

/-- At the least depth of a name, reading there is the search for the name. -/
theorem get?_eq_getAt? (h : IsLeast {d | env.BindsAt s d name} depth) :
    ∃ value, env.get? s name = some value ∧ env.getAt? s depth name = some value := by
  obtain ⟨outer, hancestor, hbinds⟩ := h.1
  obtain ⟨value, hvalue⟩ := Option.isSome_iff_exists.1 hbinds
  have hscope : env.scopeOf? s name = some outer.scope :=
    nearest_iff.1 ⟨depth, outer, h, hancestor, rfl⟩
  refine ⟨value, ?_, ?_⟩
  · rw [get?_eq_bind, hscope]
    exact hvalue
  · rw [getAt?, hancestor]
    exact hvalue

/-- At the least depth of a name, writing there is the assignment to the name. -/
theorem assign?_eq_assignAt? (h : IsLeast {d | env.BindsAt s d name} depth) (value : α) :
    ∃ t, env.assign? s name value = some t ∧ env.assignAt? s depth name value = some t := by
  obtain ⟨outer, hancestor, -⟩ := h.1
  have hscope : env.scopeOf? s name = some outer.scope :=
    nearest_iff.1 ⟨depth, outer, h, hancestor, rfl⟩
  refine ⟨s.put outer.scope name value, ?_, ?_⟩
  · rw [assign?, hscope]
    rfl
  · rw [assignAt?, hancestor]
    rfl

/-- A name that no scope binds is neither found nor assigned to. -/
theorem missing (h : ∀ depth, ¬ env.BindsAt s depth name) :
    env.get? s name = none ∧ ∀ value, env.assign? s name value = none := by
  have hscope := scopeOf?_eq_none_iff.2 h
  constructor
  · rw [get?_eq_bind, hscope]
    rfl
  · intro value
    rw [assign?, hscope]
    rfl

/-! ### Writing -/

/-- A write through the environment of one name in one scope, with the store after it. -/
inductive Writes (env : Environment) (s : Store α) (name : String) (value : α) :
    ScopeId → Store α → Prop where
  | define : Writes env s name value env.scope (env.define s name value)
  | assign {scope : ScopeId} {t : Store α} (hscope : env.Nearest s name scope)
      (h : env.assign? s name value = some t) : Writes env s name value scope t
  | assignAt {depth : Nat} {outer : Environment} {t : Store α}
      (hancestor : env.ancestor? depth = some outer) (hbinds : s.binds outer.scope name = true)
      (h : env.assignAt? s depth name value = some t) : Writes env s name value outer.scope t

theorem Writes.scope_mem {value : α} {t : Store α} (h : env.Writes s name value scope t) :
    scope ∈ env.chain := by
  cases h with
  | define => exact .head _
  | assign hscope _ => exact List.mem_of_find?_eq_some (nearest_iff.1 hscope)
  | @assignAt depth _ _ hancestor _ _ =>
    have hat := ancestor?_map_scope env depth
    rw [hancestor] at hat
    exact List.mem_of_getElem? hat.symm

theorem Writes.eq_put {value : α} {t : Store α} (h : env.Writes s name value scope t) :
    t = s.put scope name value := by
  cases h with
  | define => rfl
  | assign hscope h =>
    rw [assign?, nearest_iff.1 hscope] at h
    exact (Option.some.inj h).symm
  | assignAt hancestor _ h =>
    rw [assignAt?, hancestor] at h
    exact (Option.some.inj h).symm

/-- After a write the written value is found where the slot is the nearest one, and what was found before
everywhere else. -/
theorem get?_put (env : Environment) {value : α} {key : String} (h : scope < s.size) :
    env.get? (s.put scope name value) key =
      if env.Nearest (s.put scope name value) key scope ∧ key = name then some value
      else env.get? s key := by
  simp only [nearest_iff]
  rw [get?, scopeOf?, get?]
  induction env.chain with
  | nil => rfl
  | cons other outer ih =>
    rw [List.findSome?_cons, List.find?_cons, List.findSome?_cons, Store.binds, Store.get?_put s _ _ _ _ h]
    by_cases hslot : other = scope ∧ key = name
    · simp [hslot]
    · rw [if_neg hslot]
      cases hvalue : s.get? other key with
      | none => simpa using ih
      | some found => simpa using fun hscope hkey => absurd ⟨hscope, hkey⟩ hslot

end Environment

/-! ### Forests -/

/-- The scopes made so far, and the environments of which they are the innermost scopes. -/
structure Forest (α : Type) where
  store : Store α
  environments : List Environment

namespace Forest

def empty : Forest α := ⟨.empty, []⟩

/-- A new environment, on its own or inside another, or a write through an environment. -/
inductive Step : Forest α → Forest α → Prop where
  | root (F : Forest α) : Step F ⟨F.store.push ∅, ⟨F.store.size, []⟩ :: F.environments⟩
  | inner {F : Forest α} {env : Environment} (h : env ∈ F.environments) :
      Step F ⟨F.store.push ∅, env.inner F.store.size :: F.environments⟩
  | write {F : Forest α} {env : Environment} {name : String} {value : α} {scope : ScopeId}
      {t : Store α} (h : env ∈ F.environments) (hwrite : env.Writes F.store name value scope t) :
      Step F { F with store := t }

/-- The forest comes about from the empty one. -/
def Built (F : Forest α) : Prop := Relation.ReflTransGen Step empty F

/-- All scopes of all environments are in the store. -/
def Bounded (F : Forest α) : Prop :=
  ∀ env ∈ F.environments, ∀ scope ∈ env.chain, scope < F.store.size

variable {F G : Forest α}

theorem Bounded.step (h : F.Bounded) (hstep : Step F G) : G.Bounded := by
  cases hstep with
  | root =>
    intro env henv scope hscope
    rw [Store.size_push]
    rcases List.mem_cons.1 henv with rfl | henv
    · obtain rfl := List.mem_singleton.1 hscope
      exact Nat.lt_succ_self _
    · exact Nat.lt_succ_of_lt (h env henv scope hscope)
  | @inner around haround =>
    intro env henv scope hscope
    rw [Store.size_push]
    rcases List.mem_cons.1 henv with rfl | henv
    · rcases List.mem_cons.1 hscope with rfl | hscope
      · exact Nat.lt_succ_self _
      · exact Nat.lt_succ_of_lt (h around haround scope hscope)
    · exact Nat.lt_succ_of_lt (h env henv scope hscope)
  | write _ hwrite =>
    intro env henv scope hscope
    rw [hwrite.eq_put, Store.size_put]
    exact h env henv scope hscope

theorem Built.bounded (h : F.Built) : F.Bounded := by
  induction h with
  | refl => exact nofun
  | tail _ hstep ih => exact ih.step hstep

/-- Searching and depth addressing agree, and a write touches one slot. In every forest, for every
environment and every name: at the least depth that binds the name, reading and writing there are the
search and the assignment; without such a depth the name is neither found nor assigned to, which for a
global variable is reported as an undefined variable. After a write through the environment, any environment
finds the new value where the slot is the nearest one, and what it found before otherwise. An ancestor is
missing just at the depths past the chain. -/
theorem search_agrees_with_addressing {F : Forest Value} (hF : F.Built) {env : Environment}
    (henv : env ∈ F.environments) (name : String) :
    (∀ depth, IsLeast {d | env.BindsAt F.store d name} depth →
      (∃ value, env.get? F.store name = some value ∧ env.getAt? F.store depth name = some value) ∧
      ∀ value, ∃ t, env.assign? F.store name value = some t ∧
        env.assignAt? F.store depth name value = some t) ∧
    ((∀ depth, ¬ env.BindsAt F.store depth name) →
      (env.get? F.store name = none ∧ ∀ value, env.assign? F.store name value = none) ∧
      (env = .global → ∀ (m : Machine) (target : Reference), m.store = F.store →
        m.depths[target.id]? = none → target.name.text = name →
        valueOf target.id name target.name.line m =
          .error ⟨.undefinedVariable name, target.name.line⟩ m ∧
        ∀ value, Run.assign target value m =
          .error ⟨.undefinedVariable name, target.name.line⟩ m)) ∧
    (∀ value scope t, env.Writes F.store name value scope t → ∀ f ∈ F.environments, ∀ key,
      f.get? t key =
        if f.Nearest t key scope ∧ key = name then some value else f.get? F.store key) ∧
    ∀ depth, env.ancestor? depth = none ↔ env.chain.length ≤ depth := by
  refine ⟨fun depth h => ⟨Environment.get?_eq_getAt? h, Environment.assign?_eq_assignAt? h⟩,
    fun h => ⟨Environment.missing h, ?_⟩, ?_, fun depth => Environment.ancestor?_eq_none_iff⟩
  · rintro rfl m target hstore hdepth rfl
    have hvalue : m.valueOf? target.id target.name.text = none := by
      rw [Machine.valueOf?, hdepth, Machine.global?, hstore]
      exact (Environment.missing h).1
    have hscope : m.assignee? target.id target.name.text = none := by
      rw [Machine.assignee?, hdepth, hstore]
      exact Environment.scopeOf?_eq_none_iff.2 h
    constructor
    · rw [valueOf_apply, hvalue]
    · intro value
      rw [assign_apply, hscope]
  · intro value scope t hwrite f hf key
    have hscope : scope < F.store.size := hF.bounded env henv scope hwrite.scope_mem
    rw [hwrite.eq_put]
    exact f.get?_put hscope

/-- A variable of the outer of two scopes, and one more of the same name in the inner one. -/
theorem search_agrees_with_addressing_shadowed :
    let before : Forest Value := ⟨⟨#[⟨[("x", .nil)]⟩, ∅]⟩, [⟨1, [0]⟩, ⟨0, []⟩]⟩
    let after : Store Value := ⟨#[⟨[("x", .nil)]⟩, ⟨[("x", .bool true)]⟩]⟩
    before.Built ∧ (⟨1, [0]⟩ : Environment) ∈ before.environments ∧
    (∃ value, (⟨1, [0]⟩ : Environment).get? before.store "x" = some value ∧
      (⟨1, [0]⟩ : Environment).getAt? before.store 1 "x" = some value) ∧
    (⟨1, [0]⟩ : Environment).get? after "x" = some (.bool true) ∧
    (⟨0, []⟩ : Environment).get? after "x" = (⟨0, []⟩ : Environment).get? before.store "x" := by
  intro before after
  have hroot : (⟨⟨#[∅]⟩, [⟨0, []⟩]⟩ : Forest Value).Built := .single (.root .empty)
  have hdefined : (⟨⟨#[⟨[("x", .nil)]⟩]⟩, [⟨0, []⟩]⟩ : Forest Value).Built :=
    hroot.tail (.write (.head _) .define)
  have hopened : Step (⟨⟨#[⟨[("x", .nil)]⟩]⟩, [⟨0, []⟩]⟩ : Forest Value) before :=
    @Step.inner _ _ ⟨0, []⟩ (.head _)
  have hbuilt : before.Built := hdefined.tail hopened
  have hinner : (⟨1, [0]⟩ : Environment) ∈ before.environments := .head _
  have houter : (⟨0, []⟩ : Environment) ∈ before.environments := .tail _ (.head _)
  have hleast : IsLeast {d | (⟨1, [0]⟩ : Environment).BindsAt before.store d "x"} 1 := by
    constructor
    · exact Environment.bindsAt_iff.2 ⟨0, rfl, rfl⟩
    · rintro (_ | d) hd
      · obtain ⟨scope, hat, hbinds⟩ := Environment.bindsAt_iff.1 hd
        cases hat
        cases hbinds
      · exact Nat.succ_pos d
  have hwrite : (⟨1, [0]⟩ : Environment).Writes before.store "x" (.bool true) 1 after := .define
  obtain ⟨hsearch, -, hwrites, -⟩ := search_agrees_with_addressing hbuilt hinner "x"
  refine ⟨hbuilt, hinner, (hsearch 1 hleast).1, ?_, ?_⟩
  · exact hwrites _ _ _ hwrite _ hinner "x"
  · exact hwrites _ _ _ hwrite _ houter "x"

end Forest

end Lox
