import Lox.Proofs.Evaluation.Regime

/-!
# Growing machines

A machine grows while it runs: scopes, instances and identities are added and none goes away, and
what `this` and `super` are bound to in a local scope is settled when the scope is made.

## Implementation notes

That a scope does not bind one of the two names is settled as well. So a search for `this` finds the
same scope at any later time.
-/

namespace Lox

/-- The store has all scopes of the one before, and in the local ones of these `this` and `super` are
bound as before or as little as before. -/
structure Store.Steady (s t : Store Value) : Prop where
  size : s.size ≤ t.size
  get? : ∀ scope name, 0 < scope → scope < s.size → ¬ OrdinaryName name →
    t.get? scope name = s.get? scope name

namespace Store.Steady

variable {s t u : Store Value}

theorem refl (s : Store Value) : s.Steady s := ⟨Nat.le_refl _, fun _ _ _ _ _ => rfl⟩

theorem trans (h : s.Steady t) (k : t.Steady u) : s.Steady u where
  size := Nat.le_trans h.size k.size
  get? scope name hlocal hlt hname :=
    (k.get? scope name hlocal (Nat.lt_of_lt_of_le hlt h.size) hname).trans
      (h.get? scope name hlocal hlt hname)

theorem put (s : Store Value) (scope : ScopeId) {name : String} (value : Value)
    (hname : OrdinaryName name) : s.Steady (s.put scope name value) := by
  refine ⟨Nat.le_of_eq (Store.size_put ..).symm, fun other key _ hlt hkey => ?_⟩
  by_cases hother : other = scope
  · subst hother
    have hne : ¬ (other = other ∧ key = name) := fun h => hkey (h.2 ▸ hname)
    rw [Store.get?_put s _ _ _ _ hlt, if_neg hne]
  · rw [Store.get?, Store.scope_put_of_ne s name value hother, Store.get?]

/-- The global scope may bind any name. -/
theorem put_global (s : Store Value) (name : String) (value : Value) :
    s.Steady (s.put 0 name value) := by
  refine ⟨Nat.le_of_eq (Store.size_put ..).symm, fun other key hlocal _ _ => ?_⟩
  rw [Store.get?, Store.scope_put_of_ne s name value (Nat.ne_of_gt hlocal), Store.get?]

theorem push (s : Store Value) (bindings : Table Value) : s.Steady (s.push bindings) := by
  refine ⟨by rw [Store.size_push]; exact Nat.le_succ _, fun scope name _ hlt _ => ?_⟩
  exact Store.get?_push_of_lt s bindings name hlt

theorem eq_some (h : s.Steady t) {scope : ScopeId} {name : String} {value : Value}
    (hlocal : 0 < scope) (hname : ¬ OrdinaryName name) (hv : s.get? scope name = some value) :
    t.get? scope name = some value :=
  (h.get? scope name hlocal (Store.Extends.get?_lt hv) hname).trans hv

end Store.Steady

/-- The second machine comes after the first one in a session. -/
structure Machine.Grows (m after : Machine) : Prop where
  store : m.store.Steady after.store
  fields : m.fields.size ≤ after.fields.size
  nextIdentity : m.nextIdentity ≤ after.nextIdentity
  depths : ∀ (id depth : Nat), m.depths[id]? = some depth → after.depths[id]? = some depth

namespace Machine.Grows

variable {m after later : Machine}

theorem refl (m : Machine) : m.Grows m :=
  ⟨.refl _, Nat.le_refl _, Nat.le_refl _, fun _ _ h => h⟩

theorem trans (h : m.Grows after) (k : after.Grows later) : m.Grows later where
  store := h.store.trans k.store
  fields := Nat.le_trans h.fields k.fields
  nextIdentity := Nat.le_trans h.nextIdentity k.nextIdentity
  depths id depth hd := k.depths id depth (h.depths id depth hd)

/-- The parts that may grow are as before. -/
theorem of_eq (hs : after.store = m.store) (hf : after.fields = m.fields)
    (hi : after.nextIdentity = m.nextIdentity) (hd : after.depths = m.depths) : m.Grows after where
  store := hs ▸ .refl _
  fields := Nat.le_of_eq (congrArg Store.size hf).symm
  nextIdentity := Nat.le_of_eq hi.symm
  depths _ _ h := hd ▸ h

/-- Only the store has changed. -/
theorem withStore {s : Store Value} (h : m.store.Steady s) : m.Grows { m with store := s } :=
  ⟨h, Nat.le_refl _, Nat.le_refl _, fun _ _ h => h⟩

theorem put (m : Machine) (scope : ScopeId) {name : String} (value : Value)
    (hname : OrdinaryName name) : m.Grows { m with store := m.store.put scope name value } :=
  withStore (.put m.store scope value hname)

theorem push (m : Machine) (bindings : Table Value) :
    m.Grows { m with store := m.store.push bindings } :=
  withStore (.push m.store bindings)

theorem setField (m : Machine) (object : Instance) (name : String) (value : Value) :
    m.Grows { m with fields := m.fields.put object.id name value } :=
  ⟨.refl _, Nat.le_of_eq (Store.size_put ..).symm, Nat.le_refl _, fun _ _ h => h⟩

theorem instantiate (m : Machine) : m.Grows { m with fields := m.fields.push ∅ } :=
  ⟨.refl _, by rw [Store.size_push]; exact Nat.le_succ _, Nat.le_refl _, fun _ _ h => h⟩

theorem freshIdentity (m : Machine) (count : Nat) :
    m.Grows { m with nextIdentity := m.nextIdentity + count } :=
  ⟨.refl _, Nat.le_refl _, Nat.le_add_right _ _, fun _ _ h => h⟩

end Machine.Grows

end Lox
