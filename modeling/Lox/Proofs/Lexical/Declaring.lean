import Lox.Proofs.Lexical.Steps

/-!
# Declarations that match

A declaration binds a name in the innermost scope, and in the reference semantics it extends the map.
The two match as long as the innermost scope has no slots but those of the names declared in it. This
is what the rule against declaring a name twice is needed for.
-/

namespace Lox.Lexical

open Procedure

variable {depths : Depths} {limit : NodeId} {low : Nat} {slots later : Slots} {m after : Machine}
  {s t : State} {names : ScopeNames} {scope inner : Scope} {env : Environment}

/-- The environment matches the map, and the slots of its innermost scope are the names that were
declared there. -/
structure Innermost (slots : Slots) (env : Environment) (names : ScopeNames) (scope : Scope) :
    Prop where
  scopes : ScopeMatches slots env names scope
  isLocal : names ≠ [] → 0 < env.scope
  exact : ∀ name, (env.scope, name) ∈ slots → ∃ list ∈ names.head?, name ∈ list

theorem Innermost.grow {limit : Nat} (h : Innermost slots env names scope) (hlt : env.scope < limit)
    (hle : slots <+: later) (hfresh : ∀ slot ∈ later, slot ∈ slots ∨ limit ≤ slot.1) :
    Innermost later env names scope where
  scopes := h.scopes.mono hle
  isLocal := h.isLocal
  exact name hname := (hfresh _ hname).elim (h.exact name) fun hge =>
    absurd hlt (Nat.not_lt.2 hge)

theorem Innermost.restore (h : Innermost later env names inner)
    (hs : ScopeMatches slots env names scope) (hle : slots <+: later) :
    Innermost later env names scope := ⟨hs.mono hle, h.isLocal, h.exact⟩

/-- One more slot in the innermost scope, for a name declared there. -/
theorem Innermost.declare (h : Innermost slots env names scope) (hn : names ≠ []) (name : String) :
    Innermost (slots ++ [(env.scope, name)]) env (names.declare name)
      (scope.extend name slots.length) where
  scopes := (h.scopes.mono (List.prefix_append slots _)).declare hn List.getElem?_concat_length
  isLocal _ := h.isLocal hn
  exact key hkey := by
    obtain ⟨list, outer, rfl⟩ := List.exists_cons_of_ne_nil hn
    refine ⟨name :: list, rfl, ?_⟩
    rcases List.mem_append.1 hkey with hkey | hkey
    · obtain ⟨_, ⟨⟩, hmem⟩ := h.exact key hkey
      exact .tail _ hmem
    · obtain ⟨-, rfl⟩ := Prod.mk.inj (List.mem_singleton.1 hkey)
      exact .head _

/-- Statements can be run from here: the states match, and so do the environment and the map. -/
structure Running (depths : Depths) (limit : NodeId) (low : Nat) (slots : Slots)
    (names : ScopeNames) (m : Machine) (s : State) (scope : Scope) : Prop where
  states : Matches depths limit low slots m s
  innermost : Innermost slots m.environment names scope
  scope_lt : m.environment.scope < m.store.size
  low_le : low ≤ m.environment.scope

namespace Running

/-- A part of the run has brought the names and the map to `names` and `inner`. -/
theorem next {before : ScopeNames} (h : Running depths limit low slots before m s scope)
    (hg : Grows low slots m later after) (hm : Matches depths limit low later after t)
    (hi : Innermost later m.environment names inner) :
    Running depths limit low later names after t inner where
  states := hm
  innermost := hg.environment ▸ hi
  scope_lt := hg.environment ▸ Nat.lt_of_lt_of_le h.scope_lt hg.size
  low_le := hg.environment ▸ h.low_le

/-- What is evaluated on the way adds no names to the innermost scope. -/
theorem simulates {α β : Type} {x : Lox.Run α} {y : Run β} {P : Slots → α → β → Prop}
    (h : Running depths limit low slots names m s scope)
    (hx : Simulates depths limit m.store.size slots m s x y P) :
    Simulates depths limit low slots m s x y fun later a b =>
      P later a b ∧ Innermost later m.environment names scope := by
  refine Agree.mono hx ?_
  rintro a b after t ⟨later, hg, hm, hP⟩
  exact ⟨later, hg.weaken h.states.low_le, hm.weaken h.states.low_le, hP,
    h.innermost.grow h.scope_lt hg.le hg.fresh⟩

/-- A declaration of a new name. The value may hold the map that it is declared in. -/
theorem declare (h : Running depths limit low slots names m s scope) {name : String}
    (hfresh : names.Fresh name) {v : Lox.Value} {f : Scope → Value}
    (hv : ∀ later inner, slots <+: later →
      ScopeMatches later m.environment (names.declare name) inner →
      ValueMatches depths limit later v (f inner)) :
    Simulates depths limit low slots m s (Run.define name v)
      (Lexical.declare scope name f)
      fun later _ inner => Innermost later m.environment (names.declare name) inner := by
  have hsize : m.store.size ≤ (m.store.put m.environment.scope name v).size :=
    Nat.le_of_eq (Store.size_put _ _ _ _).symm
  by_cases hn : names = []
  · subst hn
    obtain ⟨henv, rfl⟩ := h.innermost.scopes.global rfl
    have hcell := hv slots .global (List.prefix_refl _) h.innermost.scopes
    refine Simulates.of_ok rfl rfl ⟨List.prefix_refl _, hsize, fun _ h => .inl h, rfl⟩ ?_
      h.innermost
    have hput := h.states.putGlobal name hcell
    rw [show (0 : ScopeId) = m.environment.scope by rw [henv]; rfl] at hput
    exact hput
  · obtain ⟨locations, rfl⟩ := h.innermost.scopes.inside hn
    have hnew : (m.environment.scope, name) ∉ slots := by
      intro hmem
      obtain ⟨list, hlist, hmem⟩ := h.innermost.exact name hmem
      exact hfresh list hlist hmem
    have hle : slots <+: slots ++ [(m.environment.scope, name)] := List.prefix_append slots _
    have hinner := h.innermost.declare hn name
    have hpos := h.innermost.isLocal hn
    have hget : (m.store.put m.environment.scope name v).get? m.environment.scope name =
        some v := by
      rw [Store.get?_put m.store _ _ _ _ h.scope_lt, if_pos ⟨rfl, rfl⟩]
    rw [← h.states.size] at hinner
    have hadopt := (h.states.untracked v hpos h.scope_lt hnew).adopt hpos
      (Nat.lt_of_lt_of_le h.scope_lt hsize) hnew hget (hv _ _ hle hinner.scopes)
    refine Simulates.of_ok rfl rfl ⟨hle, hsize, fun slot hslot => ?_, rfl⟩ hadopt hinner
    rcases List.mem_append.1 hslot with hslot | hslot
    · exact .inl hslot
    · obtain rfl := List.mem_singleton.1 hslot
      exact .inr h.low_le

/-- A variable that was just declared gets another value. -/
theorem redefine (h : Running depths limit low slots names m s scope) {name : String}
    (hdeclared : names ≠ [] → names.depth? name = some 0) {value : Lox.Value} {cell : Value}
    (hv : ValueMatches depths limit slots value cell) :
    Simulates depths limit low slots m s (Run.define name value) (Lexical.put scope name cell)
      fun later _ _ => later = slots := by
  have hsize : m.store.size ≤ (m.store.put m.environment.scope name value).size :=
    Nat.le_of_eq (Store.size_put _ _ _ _).symm
  refine Simulates.of_ok rfl rfl ⟨List.prefix_refl _, hsize, fun _ h => .inl h, rfl⟩ ?_ rfl
  by_cases hn : names = []
  · subst hn
    obtain ⟨henv, rfl⟩ := h.innermost.scopes.global rfl
    have hput := h.states.putGlobal name hv
    rw [show (0 : ScopeId) = m.environment.scope by rw [henv]; rfl] at hput
    exact hput
  · obtain ⟨outer, location, ho, hl, hslot⟩ := h.innermost.scopes.hit name 0 (hdeclared hn)
    obtain rfl : m.environment = outer := Option.some.inj ho
    simp only [State.put, hl]
    exact h.states.putLocal hslot hv

end Running

/-! ### Calls and blocks -/

/-- The names that a new scope has from the start become slots one by one. -/
theorem Innermost.extendAll (h : Matches depths limit low slots m s) {list : List String}
    {outer : ScopeNames} (hi : Innermost slots env (list :: outer) scope)
    (hlt : env.scope < m.store.size) (entries : List (String × Value))
    (hnodup : (entries.map Prod.fst).Nodup) (hnew : ∀ entry ∈ entries, entry.1 ∉ list)
    (hvalues : ∀ entry ∈ entries, ∃ value, m.store.get? env.scope entry.1 = some value ∧
      ValueMatches depths limit slots value entry.2) :
    ∃ later t inner, Lexical.extendAll scope entries s = .ok inner t ∧ slots <+: later ∧
      (∀ slot ∈ later, slot ∈ slots ∨ slot.1 = env.scope) ∧ Matches depths limit low later m t ∧
      Innermost later env (((entries.map Prod.fst).reverse ++ list) :: outer) inner := by
  induction entries generalizing slots s scope list with
  | nil => exact ⟨slots, s, scope, rfl, List.prefix_refl _, fun _ h => .inl h, h, hi⟩
  | cons entry rest ih =>
    obtain ⟨name, cell⟩ := entry
    rw [List.map_cons, List.nodup_cons] at hnodup
    obtain ⟨hname, hnew⟩ := List.forall_mem_cons.1 hnew
    obtain ⟨⟨value, hget, hmatch⟩, hvalues⟩ := List.forall_mem_cons.1 hvalues
    have hle : slots <+: slots ++ [(env.scope, name)] := List.prefix_append slots _
    have hslot : (env.scope, name) ∉ slots := by
      intro hmem
      obtain ⟨_, ⟨⟩, hmem⟩ := hi.exact name hmem
      exact hname hmem
    have hadopt := h.adopt (hi.isLocal (List.cons_ne_nil _ _)) hlt hslot hget (hmatch.grow hle)
    have hdeclare : Innermost _ env ((name :: list) :: outer) _ :=
      hi.declare (List.cons_ne_nil _ _) name
    have hrest : ∀ entry ∈ rest, entry.1 ∉ name :: list := by
      intro entry hmem hlist
      rcases List.mem_cons.1 hlist with rfl | hlist
      · exact hnodup.1 (List.mem_map.2 ⟨entry, hmem, rfl⟩)
      · exact hnew entry hmem hlist
    obtain ⟨later, t, inner, hrun, hle', hfresh, hm, hi'⟩ := ih hadopt hdeclare hnodup.2 hrest
      fun entry hmem => (hvalues entry hmem).imp fun _ hv => ⟨hv.1, hv.2.grow hle⟩
    refine ⟨later, t, inner, ?_, hle.trans hle', fun slot hmem => ?_, hm, ?_⟩
    · rw [Lexical.extendAll]
      refine (bind_apply_of_ok rfl).trans ?_
      rw [← h.size] at hrun
      exact hrun
    · rcases hfresh slot hmem with hmem | he
      · rcases List.mem_append.1 hmem with hmem | hmem
        · exact .inl hmem
        · exact .inr (List.mem_singleton.1 hmem ▸ rfl)
      · exact .inr he
    · simpa only [List.map_cons, List.reverse_cons, List.append_assoc, List.singleton_append]
        using hi'

/-- In a table of these entries, with no name twice, each name has its value. -/
theorem get?_ofList_of_mem {α : Type} {entries : List (String × α)} {name : String} {value : α}
    (hnodup : (entries.map Prod.fst).Nodup) (h : (name, value) ∈ entries) :
    (Lox.Table.ofList entries).get? name = some value := by
  have hcontains : (Lox.Table.ofList entries).contains name = true :=
    (Lox.Table.contains_ofList_iff entries name).2 (List.mem_map_of_mem h)
  obtain ⟨found, hfound⟩ := Option.isSome_iff_exists.1 hcontains
  have hmem := Lox.Table.mem_of_get?_ofList hfound
  have hpair := List.inj_on_of_nodup_map hnodup h hmem rfl
  rw [hfound, (Prod.mk.inj hpair).2]

theorem exists_mem_zip {α β : Type} {R : α → β → Prop} {as : List α} {bs : List β}
    (h : List.Forall₂ R as bs) {keys : List String} {name : String} {b : β}
    (hmem : (name, b) ∈ keys.zip bs) : ∃ a, (name, a) ∈ keys.zip as ∧ R a b := by
  induction h generalizing keys with
  | nil => simp at hmem
  | @cons a b' as bs hab _ ih =>
    cases keys with
    | nil => simp at hmem
    | cons key keys =>
      rcases List.mem_cons.1 hmem with he | hmem
      · obtain ⟨rfl, rfl⟩ := Prod.mk.inj he
        exact ⟨a, .head _, hab⟩
      · obtain ⟨c, hc, hcb⟩ := ih hmem
        exact ⟨c, .tail _ hc, hcb⟩

/-- The parameters of a call, in a new scope of the machine, and a new map. -/
theorem Simulates.call (h : Matches depths limit low slots m s)
    (hs : ScopeMatches slots env names scope) {params : List String} (hnodup : params.Nodup)
    {as : List Lox.Value} {bs : List Value} (hab : List.Forall₂ (ValueMatches depths limit slots) as bs)
    (hlen : as.length = params.length) {α β : Type} {x : Lox.Run α} {y : Scope → Run β}
    {P : Slots → α → β → Prop}
    (hbody : ∀ later after t inner,
      Running depths limit low later (params.reverse :: names) after t inner →
      Simulates depths limit low later after t x (y inner) P) :
    Simulates depths limit low slots m s
      (Run.newScope env (.ofList (params.zip as)) >>= fun frame => Run.inEnvironment frame x)
      (extendAll (.inside scope.locations) (params.zip bs) >>= y) P := by
  have hnone : ∀ name, (m.store.size, name) ∉ slots := fun name hmem =>
    Nat.lt_irrefl _ (h.isLocal _ hmem).2
  have hpush := h.push (.ofList (params.zip as))
  have hlt : m.store.size < (m.store.push (.ofList (params.zip as))).size := by
    rw [Store.size_push]
    exact Nat.lt_succ_self _
  have hi : Innermost slots (env.inner m.store.size) ([] :: names) (.inside scope.locations) :=
    ⟨hs.inner m.store.size, fun _ => h.global, fun name hmem => absurd hmem (hnone name)⟩
  have hkeys : (params.zip bs).map Prod.fst = params :=
    List.map_fst_zip (Nat.le_of_eq (hlen.symm.trans hab.length_eq))
  have hvalues : ∀ entry ∈ params.zip bs, ∃ value,
      (m.store.push (.ofList (params.zip as))).get? m.store.size entry.1 = some value ∧
        ValueMatches depths limit slots value entry.2 := by
    rintro ⟨name, cell⟩ hmem
    obtain ⟨value, hvalue, hmatch⟩ := exists_mem_zip hab hmem
    refine ⟨value, ?_, hmatch⟩
    rw [Store.get?_push_size]
    exact get?_ofList_of_mem (by rwa [List.map_fst_zip (Nat.le_of_eq hlen.symm)]) hvalue
  obtain ⟨later, t, inner, hrun, hle, hfresh, hm, hi'⟩ := Innermost.extendAll hpush hi hlt
    (params.zip bs) (by rwa [hkeys]) (fun _ _ => List.not_mem_nil) hvalues
  rw [hkeys, List.append_nil] at hi'
  have hx := Simulates.inEnvironment (m := { m with store := m.store.push (.ofList (params.zip as)) })
    (env.inner m.store.size) (hbody later _ t inner ⟨{ hm with }, hi', hlt, h.low_le⟩)
  refine Agree.congr (bind_apply_of_ok rfl) (bind_apply_of_ok hrun) (Agree.mono hx ?_)
  rintro a b after u ⟨last, hg, hm', hP⟩
  have hentry : Grows low slots m later
      { m with store := m.store.push (.ofList (params.zip as)) } :=
    ⟨hle, Nat.le_of_lt hlt, fun slot hslot => (hfresh slot hslot).imp_right
      fun he : slot.1 = m.store.size => he ▸ h.low_le, rfl⟩
  exact ⟨last, hentry.trans hg, hm', hP⟩

end Lox.Lexical
