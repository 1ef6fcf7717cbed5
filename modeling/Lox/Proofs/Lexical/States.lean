import Mathlib.Data.List.Nodup
import Lox.Host
import Lox.Proofs.Lexical.Matching

/-!
# States that match

A machine matches a state of the reference semantics if every local variable has its value in its
slot, every global variable under its name, and everything else is the same. Scopes may bind more
than the slots say.
-/

namespace Lox.Lexical

variable {depths : Depths} {limit : NodeId} {low : Nat} {slots later : Slots} {m after : Machine}
  {s : State} {names : ScopeNames} {scope : Scope}

/-- All variables have values that match, and the scopes of local variables are among those of the
machine. Scopes from `low` on may get new variables. -/
structure Matches (depths : Depths) (limit : NodeId) (low : Nat) (slots : Slots) (m : Machine)
    (s : State) : Prop where
  recorded : ∀ id, m.depths[id]? = depths id
  low_le : low ≤ m.store.size
  global : 0 < m.store.size
  nodup : slots.Nodup
  isLocal : ∀ slot ∈ slots, 0 < slot.1 ∧ slot.1 < m.store.size
  size : s.cells.size = slots.length
  cells : ∀ (location : Location) (id : ScopeId) (name : String),
    slots[location]? = some (id, name) → ∃ value cell, m.store.get? id name = some value ∧
      s.cells[location]? = some cell ∧ ValueMatches depths limit slots value cell
  globals : ∀ name,
    Option.Rel (ValueMatches depths limit slots) (m.store.get? 0 name) (s.globals.get? name)
  fieldsSize : m.fields.size = s.fields.size
  fields : ∀ id name,
    Option.Rel (ValueMatches depths limit slots) (m.fields.get? id name) (s.fields.get? id name)
  nextIdentity : m.nextIdentity = s.nextIdentity
  callDepth : m.callDepth = s.callDepth
  maxCallDepth : m.maxCallDepth = s.maxCallDepth
  hostFunctions : m.hostFunctions = #[Host.clock s.now]
  output : m.output = s.output

/-- From the first machine to the second, slots were added in scopes from `low` on only. -/
structure Grows (low : Nat) (slots : Slots) (m : Machine) (later : Slots) (after : Machine) :
    Prop where
  le : slots <+: later
  size : m.store.size ≤ after.store.size
  fresh : ∀ slot ∈ later, slot ∈ slots ∨ low ≤ slot.1
  environment : after.environment = m.environment

namespace Grows

theorem refl : Grows low slots m slots m :=
  ⟨List.prefix_refl slots, Nat.le_refl _, fun _ h => .inl h, rfl⟩

theorem trans {last : Slots} {final : Machine} (h : Grows low slots m later after)
    (k : Grows low later after last final) : Grows low slots m last final where
  le := h.le.trans k.le
  size := Nat.le_trans h.size k.size
  fresh slot hslot := (k.fresh slot hslot).elim (h.fresh slot) .inr
  environment := k.environment.trans h.environment

theorem weaken {lower : Nat} (h : Grows low slots m later after) (hle : lower ≤ low) :
    Grows lower slots m later after :=
  ⟨h.le, h.size, fun slot hslot => (h.fresh slot hslot).imp_right (Nat.le_trans hle),
    h.environment⟩

theorem scopes (h : Grows low slots m later after)
    (hs : ScopeMatches slots m.environment names scope) :
    ScopeMatches later after.environment names scope := h.environment ▸ hs.mono h.le

end Grows

/-! ### Tables and stores -/

theorem get?_put_fields {α β : Type} {R : α → β → Prop} {a : Store α} {b : Store β} {id : ScopeId}
    {name : String} {v : α} {w : β} (hsize : a.size = b.size)
    (h : ∀ id name, Option.Rel R (a.get? id name) (b.get? id name)) (hv : R v w) :
    ∀ other key, Option.Rel R ((a.put id name v).get? other key) ((b.put id name w).get? other key) := by
  intro other key
  by_cases hid : id < a.size
  · rw [Store.get?_put a other name key v hid, Store.get?_put b other name key w (hsize ▸ hid)]
    split
    · exact .some hv
    · exact h other key
  · have houtside : ∀ {γ : Type} (c : Store γ) (u : γ), ¬ id < c.size →
        (c.put id name u).get? other key = c.get? other key := by
      intro γ c u hc
      have hnone : c.scopes[id]? = none := Array.getElem?_eq_none (Nat.not_lt.1 hc)
      by_cases ho : other = id
      · subst ho
        simp [Store.get?, Store.scope, Store.put, Array.getElem?_modify, hnone]
      · rw [Store.get?, Store.scope_put_of_ne c name u ho, ← Store.get?]
    rw [houtside a v hid, houtside b w (hsize ▸ hid)]
    exact h other key

theorem get?_push_fields {α β : Type} {R : α → β → Prop} {a : Store α} {b : Store β}
    (hsize : a.size = b.size) (h : ∀ id name, Option.Rel R (a.get? id name) (b.get? id name)) :
    ∀ id name, Option.Rel R ((a.push ∅).get? id name) ((b.push ∅).get? id name) := by
  have hpush : ∀ {γ : Type} (c : Store γ) (id : ScopeId) (name : String),
      (c.push ∅).get? id name = if id < c.size then c.get? id name else none := by
    intro γ c id name
    split
    · next hlt => exact Store.get?_push_of_lt c ∅ name hlt
    · next hge =>
      rcases Nat.lt_or_eq_of_le (Nat.not_lt.1 hge) with hlt | rfl
      · have hnone : (c.push ∅).scopes[id]? = none :=
          Array.getElem?_eq_none (Nat.le_of_lt_succ (by simpa [Store.push, Store.size] using hlt))
        simp [Store.get?, Store.scope, hnone, Table.get?_empty]
      · rw [Store.get?_push_size, Table.get?_empty]
  intro id name
  rw [hpush, hpush, hsize]
  split
  · exact h id name
  · exact .none

namespace Matches

/-- Names that are no slots may get any value. -/
theorem untracked (h : Matches depths limit low slots m s) {id : ScopeId} {name : String}
    (value : Lox.Value) (hid : 0 < id) (hlt : id < m.store.size) (hnew : (id, name) ∉ slots) :
    Matches depths limit low slots { m with store := m.store.put id name value } s := by
  refine { h with
    low_le := by simpa only [Store.size_put] using h.low_le
    global := by simpa only [Store.size_put] using h.global
    isLocal := by simpa only [Store.size_put] using h.isLocal
    cells := fun location other key hslot => ?_
    globals := fun key => ?_ }
  · obtain ⟨old, cell, hold, hcell, hmatch⟩ := h.cells location other key hslot
    refine ⟨old, cell, ?_, hcell, hmatch⟩
    rw [Store.get?_put m.store other name key value hlt, if_neg]
    · exact hold
    · rintro ⟨rfl, rfl⟩
      exact hnew (List.mem_of_getElem? hslot)
  · rw [Store.get?_put m.store 0 name key value hlt, if_neg fun he => Nat.ne_of_lt hid he.1]
    exact h.globals key

/-- A name that has a value becomes a slot. -/
theorem adopt (h : Matches depths limit low slots m s) {id : ScopeId} {name : String}
    {value : Lox.Value} {cell : Value} (hid : 0 < id) (hlt : id < m.store.size)
    (hnew : (id, name) ∉ slots) (hvalue : m.store.get? id name = some value)
    (hmatch : ValueMatches depths limit (slots ++ [(id, name)]) value cell) :
    Matches depths limit low (slots ++ [(id, name)]) m { s with cells := s.cells.push cell } := by
  have hle : slots <+: slots ++ [(id, name)] := List.prefix_append slots _
  refine { h with
    nodup := ?_
    isLocal := fun slot hslot => ?_
    size := by simp [h.size]
    cells := fun location other key hslot => ?_
    globals := fun key => optionRel_mono (fun _ _ hv => ValueMatches.grow hv hle) (h.globals key)
    fields := fun other key =>
      optionRel_mono (fun _ _ hv => ValueMatches.grow hv hle) (h.fields other key) }
  · rw [List.nodup_append]
    refine ⟨h.nodup, List.nodup_singleton _, fun a ha b hb => ?_⟩
    obtain rfl := List.mem_singleton.1 hb
    exact fun he => hnew (he ▸ ha)
  · rcases List.mem_append.1 hslot with hslot | hslot
    · exact h.isLocal slot hslot
    · obtain rfl := List.mem_singleton.1 hslot
      exact ⟨hid, hlt⟩
  · by_cases hlast : location < slots.length
    · rw [List.getElem?_append_left hlast] at hslot
      obtain ⟨old, found, hold, hfound, hv⟩ := h.cells location other key hslot
      refine ⟨old, found, hold, ?_, hv.grow hle⟩
      rw [Array.getElem?_push, if_neg (h.size ▸ Nat.ne_of_lt hlast)]
      exact hfound
    · rw [List.getElem?_append_right (Nat.not_lt.1 hlast), List.getElem?_singleton] at hslot
      split at hslot
      · next hzero =>
        obtain ⟨rfl, rfl⟩ := Prod.mk.inj (Option.some.inj hslot)
        refine ⟨value, cell, hvalue, ?_, hmatch⟩
        have heq : location = s.cells.size := h.size ▸
          Nat.le_antisymm (Nat.sub_eq_zero_iff_le.1 hzero) (Nat.not_lt.1 hlast)
        rw [Array.getElem?_push, if_pos heq]
      · cases hslot

/-- A new scope, whatever it binds. -/
theorem push (h : Matches depths limit low slots m s) (bindings : Table Lox.Value) :
    Matches depths limit low slots { m with store := m.store.push bindings } s := by
  refine { h with
    low_le := Nat.le_trans h.low_le (by simp only [Store.size_push]; omega)
    global := by simp only [Store.size_push]; omega
    isLocal := fun slot hslot => ?_
    cells := fun location id name hslot => ?_
    globals := fun key => ?_ }
  · simp only [Store.size_push]
    exact (h.isLocal slot hslot).imp_right Nat.lt_succ_of_lt
  · rw [Store.get?_push_of_lt _ _ name (h.isLocal _ (List.mem_of_getElem? hslot)).2]
    exact h.cells location id name hslot
  · rw [Store.get?_push_of_lt _ _ key h.global]
    exact h.globals key

/-- A local variable changes its value. -/
theorem putLocal (h : Matches depths limit low slots m s) {location : Location} {id : ScopeId}
    {name : String} {value : Lox.Value} {cell : Value}
    (hslot : slots[location]? = some (id, name))
    (hmatch : ValueMatches depths limit slots value cell) :
    Matches depths limit low slots { m with store := m.store.put id name value }
      { s with cells := s.cells.modify location fun _ => cell } := by
  obtain ⟨hid, hlt⟩ := h.isLocal _ (List.mem_of_getElem? hslot)
  refine { h with
    low_le := by simpa only [Store.size_put] using h.low_le
    global := by simpa only [Store.size_put] using h.global
    isLocal := by simpa only [Store.size_put] using h.isLocal
    size := by simpa only [Array.size_modify] using h.size
    cells := fun other key found hother => ?_
    globals := fun key => ?_ }
  · obtain ⟨old, before, hold, hbefore, hv⟩ := h.cells other key found hother
    rw [Store.get?_put m.store key name found value hlt, Array.getElem?_modify, hbefore]
    by_cases he : location = other
    · subst he
      obtain ⟨rfl, rfl⟩ := Prod.mk.inj (Option.some.inj (hslot.symm.trans hother))
      exact ⟨value, cell, if_pos ⟨rfl, rfl⟩, by simp, hmatch⟩
    · refine ⟨old, before, ?_, by rw [if_neg he], hv⟩
      rw [if_neg]
      · exact hold
      · rintro ⟨rfl, rfl⟩
        obtain ⟨hl, hget⟩ := List.getElem?_eq_some_iff.1 hslot
        obtain ⟨ho, hget'⟩ := List.getElem?_eq_some_iff.1 hother
        exact he ((List.Nodup.getElem_inj_iff h.nodup).1 (hget.trans hget'.symm))
  · rw [Store.get?_put m.store 0 name key value hlt, if_neg fun he => Nat.ne_of_lt hid he.1]
    exact h.globals key

/-- A global variable changes its value or gets its first one. -/
theorem putGlobal (h : Matches depths limit low slots m s) (name : String) {value : Lox.Value}
    {cell : Value} (hmatch : ValueMatches depths limit slots value cell) :
    Matches depths limit low slots { m with store := m.store.put 0 name value }
      { s with globals := s.globals.insert name cell } := by
  refine { h with
    low_le := by simpa only [Store.size_put] using h.low_le
    global := by simpa only [Store.size_put] using h.global
    isLocal := by simpa only [Store.size_put] using h.isLocal
    cells := fun location id key hslot => ?_
    globals := fun key => ?_ }
  · obtain ⟨old, cell, hold, hcell, hv⟩ := h.cells location id key hslot
    have hid := (h.isLocal _ (List.mem_of_getElem? hslot)).1
    refine ⟨old, cell, ?_, hcell, hv⟩
    rw [Store.get?_put m.store id name key value h.global,
      if_neg fun he => Nat.ne_of_gt hid he.1]
    exact hold
  · rw [Store.get?_put m.store 0 name key value h.global, Table.get?_insert]
    by_cases hk : key = name
    · rw [if_pos ⟨rfl, hk⟩, if_pos hk]
      exact .some hmatch
    · rw [if_neg fun he => hk he.2, if_neg hk]
      exact h.globals key

/-- A machine that may be looked at from a later point on. -/
theorem raise (h : Matches depths limit low slots m s) :
    Matches depths limit m.store.size slots m s := { h with low_le := Nat.le_refl _ }

theorem weaken {lower : Nat} (h : Matches depths limit low slots m s) (hle : lower ≤ low) :
    Matches depths limit lower slots m s := { h with low_le := Nat.le_trans hle h.low_le }

/-! ### Names -/

/-- A reference denotes the same variable on both sides. -/
theorem valueOf? (h : Matches depths limit low slots m s)
    (hs : ScopeMatches slots m.environment names scope) {id : NodeId} {name : String}
    (hd : depths id = names.depth? name) :
    Option.Rel (ValueMatches depths limit slots) (m.valueOf? id name) (s.get? scope name) := by
  unfold Machine.valueOf? State.get?
  rw [h.recorded, hd]
  cases hdepth : names.depth? name with
  | none =>
    rw [hs.miss name hdepth, Machine.global?_eq]
    exact h.globals name
  | some depth =>
    obtain ⟨outer, location, ho, hl, hslot⟩ := hs.hit name depth hdepth
    obtain ⟨value, cell, hvalue, hcell, hmatch⟩ := h.cells location outer.scope name hslot
    simp only [hl, Environment.getAt?, ho, Option.bind_some, hvalue, hcell]
    exact .some hmatch

/-- An assignment finds its variable on both sides or on none. -/
theorem assignee? (h : Matches depths limit low slots m s)
    (hs : ScopeMatches slots m.environment names scope) {id : NodeId} {name : String}
    (hd : depths id = names.depth? name) :
    (m.assignee? id name = none ∧ s.get? scope name = none) ∨
    ∃ place, m.assignee? id name = some place ∧ (s.get? scope name).isSome ∧
      ∀ value cell, ValueMatches depths limit slots value cell →
        Matches depths limit low slots { m with store := m.store.put place name value }
          (s.put scope name cell) := by
  unfold Machine.assignee? State.get? State.put
  rw [h.recorded, hd]
  cases hdepth : names.depth? name with
  | none =>
    simp only [hs.miss name hdepth]
    have hglobal := h.globals name
    cases hg : m.store.get? 0 name with
    | none =>
      rw [hg] at hglobal
      cases hl : s.globals.get? name with
      | some cell =>
        rw [hl] at hglobal
        cases hglobal
      | none =>
        refine .inl ⟨?_, rfl⟩
        simp [Environment.scopeOf?, Environment.global, Environment.chain, Store.binds, hg]
    | some old =>
      rw [hg] at hglobal
      cases hl : s.globals.get? name with
      | none =>
        rw [hl] at hglobal
        cases hglobal
      | some cell =>
        refine .inr ⟨0, ?_, rfl, fun value cell hv => h.putGlobal name hv⟩
        simp [Environment.scopeOf?, Environment.global, Environment.chain, Store.binds, hg]
  | some depth =>
    obtain ⟨outer, location, ho, hl, hslot⟩ := hs.hit name depth hdepth
    obtain ⟨old, cell, -, hcell, -⟩ := h.cells location outer.scope name hslot
    simp only [hl, ho, Option.map_some, hcell]
    exact .inr ⟨outer.scope, rfl, rfl, fun value cell hv => h.putLocal hslot hv⟩

end Matches

end Lox.Lexical
