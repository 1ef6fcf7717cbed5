import Mathlib.Data.List.Perm.Subperm
import Lox.Proofs.Evaluation.SameCode
import Lox.Proofs.Resolution.Placement

/-!
# Thinning of machines

A machine is thinned by taking empty scopes out of its store that no reference leads to. The scopes that
are kept move up, so that functions made from the same code have closures with other numbers. Apart from
these numbers a machine and the thinned one look the same.

## Implementation notes

The numbers of the kept scopes stand in a list: scope `j` of the thinned machine was scope `kept[j]`.
Where an empty scope has been taken out, the chain of an environment does not get shorter, since depths
count the scope: any scope may stand in the *gap* instead. There is at most one gap in a chain, and no
name that resolution saw there.
-/

namespace Lox

/-! ### Code that leaves a gap alone -/

/-- No name was seen in the scope that is the gap. -/
def ScopeNames.Skips (names : ScopeNames) (gap : Option Nat) : Prop :=
  ∀ depth ∈ gap, names[depth]? = some []

namespace ScopeNames.Skips

variable {names : ScopeNames} {gap : Option Nat}

theorem none (names : ScopeNames) : names.Skips none := nofun

theorem zero (names : ScopeNames) : Skips ([] :: names) (some 0) := by
  rintro _ ⟨⟩
  rfl

theorem push (h : names.Skips gap) (scope : List String) :
    Skips (scope :: names) (gap.map (· + 1)) := by
  intro depth hdepth
  obtain ⟨outer, houter, rfl⟩ := Option.mem_map.1 hdepth
  exact h outer houter

theorem declare (h : names.Skips gap) (hgap : gap ≠ some 0) (name : String) :
    (names.declare name).Skips gap := by
  intro depth hdepth
  have hscope := h depth hdepth
  cases names with
  | nil => exact hscope
  | cons scope outer =>
    cases depth with
    | zero => exact absurd hdepth hgap
    | succ depth => exact hscope

theorem after (h : names.Skips gap) {s : Stmt} (hgap : gap = some 0 → s.declared? = .none) :
    (names.after s).Skips gap := by
  unfold ScopeNames.after
  cases hs : s.declared? with
  | none => exact h
  | some name => exact h.declare (fun hzero => nomatch (hgap hzero).symm.trans hs) name

/-- No name is found in the gap. -/
theorem ne_some (h : names.Skips gap) {depth : Nat} {name : String}
    (hd : names.depth? name = some depth) : gap ≠ some depth := by
  intro hgap
  obtain ⟨scope, hscope, hmem⟩ := ScopeNames.getElem?_of_depth? hd
  obtain rfl := Option.some.inj (hscope.symm.trans (h depth hgap))
  cases hmem

/-- An innermost scope with a name is not the gap. -/
theorem ne_zero {name : String} {scope : List String} (h : Skips ((name :: scope) :: names) gap) :
    gap ≠ some 0 := fun hgap => nomatch h 0 hgap

end ScopeNames.Skips

/-- Code that was placed among these scopes, with node numbers below `limit`. -/
structure FunctionDef.PlacedBelow (depths : Depths) (limit : NodeId) (names : ScopeNames)
    (declaration : FunctionDef) : Prop where
  placed : Stmt.PlacedFunction depths names declaration
  nodes : ∀ id ∈ Stmt.functionNodes declaration, id < limit

/-- A statement that was placed among these scopes, with node numbers below `limit`. -/
structure Stmt.PlacedBelow (depths : Depths) (limit : NodeId) (names : ScopeNames) (s : Stmt) :
    Prop where
  placed : s.Placed depths names
  nodes : ∀ id ∈ s.nodes, id < limit

/-- Statements that were placed among these scopes one after the other. -/
structure Stmt.PlacedAllBelow (depths : Depths) (limit : NodeId) (names : ScopeNames)
    (body : List Stmt) : Prop where
  placed : Stmt.PlacedAll depths names body
  nodes : ∀ id ∈ Stmt.nodesAll body, id < limit

section Placed

variable {depths others : Depths} {limit high : NodeId} {names : ScopeNames}

theorem Stmt.PlacedAllBelow.cons {s : Stmt} {rest : List Stmt}
    (h : PlacedAllBelow depths limit names (s :: rest)) :
    s.PlacedBelow depths limit names ∧ PlacedAllBelow depths limit (names.after s) rest := by
  have hnodes := h.nodes
  rw [Stmt.nodesAll, List.forall_mem_append] at hnodes
  exact ⟨⟨h.placed.1, hnodes.1⟩, h.placed.2, hnodes.2⟩

namespace Stmt.PlacedBelow

theorem block {body : List Stmt} (h : (Stmt.block body).PlacedBelow depths limit names) :
    PlacedAllBelow depths limit ([] :: names) body := ⟨h.placed, h.nodes⟩

theorem thenBranch {condition : Expr} {thenBranch : Stmt} {elseBranch : Option Stmt}
    (h : (conditional condition thenBranch elseBranch).PlacedBelow depths limit names) :
    condition.Placed depths names ∧ thenBranch.PlacedBelow depths limit names ∧
      thenBranch.declared? = none := by
  obtain ⟨hplaced, hnodes⟩ := h
  cases elseBranch with
  | none =>
    rw [Stmt.nodes, List.forall_mem_append] at hnodes
    exact ⟨hplaced.1, ⟨hplaced.2.2, hnodes.2⟩, hplaced.2.1⟩
  | some elseBranch =>
    simp only [Stmt.nodes, List.forall_mem_append] at hnodes
    exact ⟨hplaced.1, ⟨hplaced.2.1.2, hnodes.1.2⟩, hplaced.2.1.1⟩

theorem elseBranch {condition : Expr} {thenBranch elseBranch : Stmt}
    (h : (conditional condition thenBranch (some elseBranch)).PlacedBelow depths limit names) :
    elseBranch.PlacedBelow depths limit names ∧ elseBranch.declared? = none := by
  obtain ⟨hplaced, hnodes⟩ := h
  simp only [Stmt.nodes, List.forall_mem_append] at hnodes
  exact ⟨⟨hplaced.2.2.2, hnodes.2⟩, hplaced.2.2.1⟩

theorem loop {condition : Expr} {body : Stmt}
    (h : (whileLoop condition body).PlacedBelow depths limit names) :
    condition.Placed depths names ∧ body.PlacedBelow depths limit names ∧ body.declared? = none := by
  have hnodes := h.nodes
  rw [Stmt.nodes, List.forall_mem_append] at hnodes
  exact ⟨h.placed.1, ⟨h.placed.2.2, hnodes.2⟩, h.placed.2.1⟩

theorem function {declaration : FunctionDef}
    (h : (Stmt.function declaration).PlacedBelow depths limit names) :
    declaration.PlacedBelow depths limit (names.declare declaration.name.text) :=
  ⟨h.placed.2.2, h.nodes⟩

end Stmt.PlacedBelow

theorem placedBelow_of_mem_methods {methods : List FunctionDef}
    (hp : Stmt.PlacedMethods depths names methods)
    (hn : ∀ id ∈ Stmt.methodNodes methods, id < limit) :
    ∀ declaration ∈ methods, declaration.PlacedBelow depths limit names := by
  induction methods with
  | nil => exact List.forall_mem_nil _
  | cons declaration rest ih =>
    rw [Stmt.methodNodes, List.forall_mem_append] at hn
    rw [List.forall_mem_cons]
    exact ⟨⟨hp.1, hn.1⟩, ih hp.2 hn.2⟩

theorem FunctionDef.PlacedBelow.body {declaration : FunctionDef}
    (h : declaration.PlacedBelow depths limit names) :
    Stmt.PlacedAllBelow depths limit (declaration.paramNames.reverse :: names) declaration.body := by
  obtain ⟨name, params, body⟩ := declaration
  exact ⟨h.placed.2.2, h.nodes⟩

/-- Depths may be recorded for new nodes. -/
theorem FunctionDef.PlacedBelow.congr {declaration : FunctionDef}
    (h : declaration.PlacedBelow depths limit names) (hd : ∀ id < limit, depths id = others id)
    (hle : limit ≤ high) : declaration.PlacedBelow others high names where
  placed := Stmt.Placed.function_congr declaration (fun id hid => hd id (h.nodes id hid)) h.placed
  nodes id hid := Nat.lt_of_lt_of_le (h.nodes id hid) hle

end Placed

/-! ### Environments -/

/-- The chains are of the same length. Outside the gap, a scope of the first was kept as the scope of
the other in the same place. -/
structure Environment.Thinned (kept : List ScopeId) (gap : Option Nat) (env other : Environment) :
    Prop where
  length : env.chain.length = other.chain.length
  within : ∀ j ∈ other.chain, j < kept.length
  scope : ∀ depth i j, gap ≠ some depth → env.chain[depth]? = some i → other.chain[depth]? = some j →
    kept[j]? = some i

namespace Environment

theorem getAt?_eq {α : Type} (env : Environment) (s : Store α) (depth : Nat) (name : String) :
    env.getAt? s depth name = env.chain[depth]?.bind (s.get? · name) := by
  rw [getAt?, ← ancestor?_map_scope]
  cases env.ancestor? depth <;> rfl

namespace Thinned

variable {kept later : List ScopeId} {gap : Option Nat} {env other : Environment}

theorem mono (h : env.Thinned kept gap other) (hle : kept <+: later) :
    env.Thinned later gap other := by
  refine ⟨h.length, fun j hj => Nat.lt_of_lt_of_le (h.within j hj) hle.length_le,
    fun depth i j hgap hi hj => ?_⟩
  obtain ⟨hlt, hij⟩ := List.getElem?_eq_some_iff.1 (h.scope depth i j hgap hi hj)
  rw [List.prefix_iff_getElem?.1 hle j hlt, hij]

/-- One more scope inside both. -/
theorem inner (h : env.Thinned kept gap other) {i j : ScopeId} (hij : kept[j]? = some i) :
    (env.inner i).Thinned kept (gap.map (· + 1)) (other.inner j) := by
  refine ⟨congrArg (· + 1) h.length, List.forall_mem_cons.2
    ⟨(List.getElem?_eq_some_iff.1 hij).1, h.within⟩, fun depth k l hgap hk hl => ?_⟩
  cases depth with
  | zero =>
    cases hk
    cases hl
    exact hij
  | succ depth =>
    refine h.scope depth k l (fun hd => hgap ?_) hk hl
    rw [hd]
    rfl

/-- A scope that is not kept, inside the first. -/
theorem hide (h : env.Thinned kept none other) (i : ScopeId) :
    (env.inner i).Thinned kept (some 0) (other.inner other.scope) := by
  refine ⟨congrArg (· + 1) h.length, List.forall_mem_cons.2 ⟨h.within _ (.head _), h.within⟩,
    fun depth k l hgap hk hl => ?_⟩
  cases depth with
  | zero => exact absurd rfl hgap
  | succ depth => exact h.scope depth k l nofun hk hl

/-- Where all scopes are kept there is no gap. -/
theorem fill {size : Nat} (h : env.Thinned (List.range size) gap env) :
    env.Thinned (List.range size) none env := by
  refine ⟨rfl, h.within, fun depth i j _ hi hj => ?_⟩
  obtain rfl := Option.some.inj (hi.symm.trans hj)
  have hlt := h.within i (List.mem_of_getElem? hi)
  rw [List.length_range] at hlt
  exact List.getElem?_range hlt

/-- There is a scope at a depth of both chains or of none of them. -/
theorem getElem? (h : env.Thinned kept gap other) {depth : Nat} (hgap : gap ≠ some depth) :
    Option.Rel (fun i j => kept[j]? = some i) env.chain[depth]? other.chain[depth]? := by
  cases hi : env.chain[depth]? with
  | none =>
    rw [List.getElem?_eq_none_iff, h.length, ← List.getElem?_eq_none_iff] at hi
    rw [hi]
    exact .none
  | some i =>
    have hlt : depth < other.chain.length := h.length ▸ (List.getElem?_eq_some_iff.1 hi).1
    rw [List.getElem?_eq_getElem hlt]
    exact .some (h.scope depth i _ hgap hi (List.getElem?_eq_getElem hlt))

/-- The innermost scope, unless it is the gap. -/
theorem innermost (h : env.Thinned kept gap other) (hgap : gap ≠ some 0) :
    kept[other.scope]? = some env.scope := h.scope 0 _ _ hgap rfl rfl

end Thinned

end Environment

/-! ### Stores -/

/-- The kept scopes of the first store are the scopes of the other one, in the same order. They have the
same names, with values that `P` relates. All other scopes are empty. -/
structure Store.Thinned {α β : Type} (P : α → β → Prop) (kept : List ScopeId) (s : Store α)
    (t : Store β) : Prop where
  length : kept.length = t.size
  increasing : kept.Pairwise (· < ·)
  lt_size : ∀ i ∈ kept, i < s.size
  scope : ∀ i j, kept[j]? = some i → (s.scope i).Alike .refl P (t.scope j)
  empty : ∀ i, i ∉ kept → s.scope i = ∅

/-- There is nothing in a scope that is not there. -/
theorem Store.scope_of_size_le {α : Type} {s : Store α} {id : ScopeId} (h : s.size ≤ id) :
    s.scope id = ∅ := by
  rw [Store.scope, Array.getElem?_eq_none h]
  rfl

namespace Store.Thinned

variable {α β : Type} {P Q : α → β → Prop} {kept : List ScopeId} {s : Store α} {t : Store β} {a : α}
  {b : β}

theorem mono (h : s.Thinned P kept t) (hPQ : ∀ a b, P a b → Q a b) : s.Thinned Q kept t :=
  { h with scope := fun i j hij => (h.scope i j hij).mono hPQ }

/-- Scopes are kept in their order, so none of them twice. -/
theorem eq_of_kept (h : s.Thinned P kept t) {i j k : ScopeId} (hj : kept[j]? = some i)
    (hk : kept[k]? = some i) : k = j := by
  have hnodup : kept.Nodup := h.increasing.imp Nat.ne_of_lt
  exact (List.getElem?_inj (List.getElem?_eq_some_iff.1 hk).1 hnodup).1 (hk.trans hj.symm)

theorem size_lt (h : s.Thinned P kept t) {i j : ScopeId} (hij : kept[j]? = some i) :
    i < s.size ∧ j < t.size :=
  ⟨h.lt_size i (List.mem_of_getElem? hij), h.length ▸ (List.getElem?_eq_some_iff.1 hij).1⟩

theorem get? (h : s.Thinned P kept t) {i j : ScopeId} (hij : kept[j]? = some i) (name : String) :
    Option.Rel P (s.get? i name) (t.get? j name) := (h.scope i j hij).get? name

theorem getAt? (h : s.Thinned P kept t) {gap : Option Nat} {env other : Environment}
    (henv : env.Thinned kept gap other) {depth : Nat} (hgap : gap ≠ some depth) (name : String) :
    Option.Rel P (env.getAt? s depth name) (other.getAt? t depth name) := by
  have hscope := henv.getElem? hgap
  rw [Environment.getAt?_eq, Environment.getAt?_eq]
  revert hscope
  generalize env.chain[depth]? = i
  generalize other.chain[depth]? = j
  intro hscope
  cases hscope with
  | none => exact .none
  | some hij => exact h.get? hij name

theorem put (h : s.Thinned P kept t) {i j : ScopeId} (hij : kept[j]? = some i) (name : String)
    (hab : P a b) : (s.put i name a).Thinned P kept (t.put j name b) where
  length := by rw [Store.size_put, h.length]
  increasing := h.increasing
  lt_size := by
    rw [Store.size_put]
    exact h.lt_size
  scope k l hkl := by
    by_cases hk : k = i
    · subst hk
      obtain rfl := h.eq_of_kept hij hkl
      obtain ⟨hs, ht⟩ := h.size_lt hij
      rw [Store.scope_put_self s name a hs, Store.scope_put_self t name b ht]
      exact (h.scope k l hij).insert name hab
    · have hl : l ≠ j := by
        rintro rfl
        exact hk (Option.some.inj (hkl.symm.trans hij))
      rw [Store.scope_put_of_ne s name a hk, Store.scope_put_of_ne t name b hl]
      exact h.scope k l hkl
  empty k hk := by
    have hne : k ≠ i := by
      rintro rfl
      exact hk (List.mem_of_getElem? hij)
    rw [Store.scope_put_of_ne s name a hne]
    exact h.empty k hk

/-- One more scope in both stores. -/
theorem push (h : s.Thinned P kept t) {bindings : Table α} {others : Table β}
    (hb : bindings.Alike .refl P others) :
    (s.push bindings).Thinned P (kept ++ [s.size]) (t.push others) where
  length := by rw [List.length_append, List.length_singleton, Store.size_push, h.length]
  increasing := by
    rw [List.pairwise_append]
    refine ⟨h.increasing, List.pairwise_singleton _ _, fun i hi j hj => ?_⟩
    rw [List.mem_singleton.1 hj]
    exact h.lt_size i hi
  lt_size i hi := by
    rw [Store.size_push]
    rcases List.mem_append.1 hi with hi | hi
    · exact Nat.lt_succ_of_lt (h.lt_size i hi)
    · rw [List.mem_singleton.1 hi]
      exact Nat.lt_succ_self _
  scope i j hij := by
    rcases Nat.lt_or_ge j kept.length with hj | hj
    · rw [List.getElem?_append_left hj] at hij
      obtain ⟨hs, ht⟩ := h.size_lt hij
      rw [Store.scope_push_of_lt s bindings hs, Store.scope_push_of_lt t others ht]
      exact h.scope i j hij
    · have hlt : j < (kept ++ [s.size]).length := (List.getElem?_eq_some_iff.1 hij).1
      rw [List.length_append, List.length_singleton] at hlt
      obtain rfl : j = kept.length := Nat.le_antisymm (Nat.lt_succ_iff.1 hlt) hj
      rw [List.getElem?_concat_length] at hij
      obtain rfl := Option.some.inj hij
      rw [Store.scope_push_size, h.length, Store.scope_push_size]
      exact hb
  empty i hi := by
    rw [List.mem_append, List.mem_singleton, not_or] at hi
    rcases Nat.lt_or_ge i s.size with hlt | hge
    · rw [Store.scope_push_of_lt s bindings hlt]
      exact h.empty i hi.1
    · refine Store.scope_of_size_le ?_
      rw [Store.size_push]
      exact Nat.lt_of_le_of_ne hge (Ne.symm hi.2)

/-- One more scope in the first store, which is empty. -/
theorem hide (h : s.Thinned P kept t) : (s.push ∅).Thinned P kept t where
  length := h.length
  increasing := h.increasing
  lt_size i hi := by
    rw [Store.size_push]
    exact Nat.lt_succ_of_lt (h.lt_size i hi)
  scope i j hij := by
    rw [Store.scope_push_of_lt s ∅ (h.size_lt hij).1]
    exact h.scope i j hij
  empty i hi := by
    rcases Nat.lt_or_ge i s.size with hlt | hge
    · rw [Store.scope_push_of_lt s ∅ hlt]
      exact h.empty i hi
    · rcases Nat.eq_or_lt_of_le hge with rfl | hgt
      · exact Store.scope_push_size s ∅
      · refine Store.scope_of_size_le ?_
        rw [Store.size_push]
        exact hgt

/-- If both stores have as many scopes, all scopes are kept. -/
theorem kept_eq_range (h : s.Thinned P kept t) (hsize : s.size = t.size) :
    kept = List.range s.size := by
  have hperm : kept.Perm (List.range s.size) := by
    refine (List.subperm_of_subset (h.increasing.imp Nat.ne_of_lt) fun i hi => ?_).perm_of_length_le ?_
    · exact List.mem_range.2 (h.lt_size i hi)
    · exact Nat.le_of_eq (List.length_range.trans (hsize.trans h.length.symm))
  exact hperm.eq_of_pairwise (fun _ _ _ _ h k => absurd h (Nat.lt_asymm k)) h.increasing
    List.pairwise_lt_range

end Store.Thinned

/-! ### Machines -/

/-- The same function with a thinned closure. Its code was placed with the scopes `inner` inside the
closure, and reaches no gap. An initializer finds its instance in the innermost scope. -/
structure Function.Thinned (depths : Depths) (limit : NodeId) (inner : ScopeNames)
    (kept : List ScopeId) (f g : Function) : Prop extends f.SameCode g where
  closure : ∃ gap names, f.closure.Thinned kept gap g.closure ∧ names.Skips gap ∧
    f.declaration.PlacedBelow depths limit (inner ++ names) ∧
    (f.isInitializer = true → ∃ outer, inner ++ names = ["this"] :: outer)

section

variable (depths : Depths) (limit : NodeId) (kept : List ScopeId)

/-- The same class with methods whose closures are thinned. These get a scope for `this` when they are
bound. -/
abbrev Class.Thinned : Class → Class → Prop :=
  Class.MatchedBy (Function.Thinned depths limit [["this"]] kept)

/-- The same instance, of a class with methods whose closures are thinned. -/
abbrev Instance.Thinned : Instance → Instance → Prop :=
  Instance.MatchedBy (Function.Thinned depths limit [["this"]] kept)

/-- The same value, with functions whose closures are thinned. -/
abbrev Value.Thinned : Value → Value → Prop :=
  Value.MatchedBy (Function.Thinned depths limit [] kept)
    (Function.Thinned depths limit [["this"]] kept)

end

/-- The second machine is the first one without some empty scopes, as far as the environments are not
concerned in which they are. -/
structure Machine.Thinned (depths : Depths) (limit : NodeId) (kept : List ScopeId) (m n : Machine) :
    Prop where
  store : m.store.Thinned (Value.Thinned depths limit kept) kept n.store
  global : kept[0]? = some 0
  fields : m.fields.Alike (fun _ => .refl) (Value.Thinned depths limit kept) n.fields
  nextIdentity : m.nextIdentity = n.nextIdentity
  callDepth : m.callDepth = n.callDepth
  maxCallDepth : m.maxCallDepth = n.maxCallDepth
  recorded : ∀ id, m.depths[id]? = depths id
  table : m.depths = n.depths
  hostFunctions : m.hostFunctions = n.hostFunctions
  blind : ∀ f ∈ n.hostFunctions, HostFunction.Blind f
  output : m.output = n.output

/-- Besides, the environments are thinned, at a place with scopes of these names around it. -/
structure Machine.ThinnedIn (depths : Depths) (limit : NodeId) (kept : List ScopeId)
    (gap : Option Nat) (names : ScopeNames) (m n : Machine) : Prop extends
    m.Thinned depths limit kept n where
  environment : m.environment.Thinned kept gap n.environment
  skips : names.Skips gap

section

variable {depths others : Depths} {limit high : NodeId} {kept later : List ScopeId} {gap : Option Nat}
  {names : ScopeNames} {m n : Machine}

theorem Function.Thinned.mono {inner : ScopeNames} {f g : Function}
    (h : f.Thinned depths limit inner kept g) (hle : kept <+: later) :
    f.Thinned depths limit inner later g := by
  obtain ⟨gap, names, hclosure, hskips, hrest⟩ := h.closure
  exact ⟨h.toSameCode, gap, names, hclosure.mono hle, hskips, hrest⟩

theorem Function.Thinned.congr {inner : ScopeNames} {f g : Function}
    (h : f.Thinned depths limit inner kept g) (hd : ∀ id < limit, depths id = others id)
    (hle : limit ≤ high) : f.Thinned others high inner kept g := by
  obtain ⟨gap, names, hclosure, hskips, hplaced, hthis⟩ := h.closure
  exact ⟨h.toSameCode, gap, names, hclosure, hskips, hplaced.congr hd hle, hthis⟩

theorem Class.Thinned.mono {c d : Class} (h : c.Thinned depths limit kept d) (hle : kept <+: later) :
    c.Thinned depths limit later d := Class.MatchedBy.mono (fun _ _ h => h.mono hle) h

theorem Instance.Thinned.mono {a b : Instance} (h : a.Thinned depths limit kept b)
    (hle : kept <+: later) : a.Thinned depths limit later b :=
  ⟨h.id, Class.Thinned.mono h.ofClass hle⟩

namespace Value.Thinned

variable {a b c d : Value}

theorem mono (h : a.Thinned depths limit kept b) (hle : kept <+: later) :
    a.Thinned depths limit later b :=
  Value.MatchedBy.mono (fun _ _ h => h.mono hle) (fun _ _ h => h.mono hle) h

theorem congr (h : a.Thinned depths limit kept b) (hd : ∀ id < limit, depths id = others id)
    (hle : limit ≤ high) : a.Thinned others high kept b :=
  Value.MatchedBy.mono (fun _ _ h => h.congr hd hle) (fun _ _ h => h.congr hd hle) h

theorem content_eq (h : a.Thinned depths limit kept b) : a.content = b.content :=
  Value.MatchedBy.content_eq (fun _ _ h => h.toSameCode) h

theorem arity?_eq (h : a.Thinned depths limit kept b) : a.arity? = b.arity? :=
  Value.MatchedBy.arity?_eq (fun _ _ h => h.toSameCode) (fun _ _ h => h.toSameCode) h

theorem isTruthy_eq (h : a.Thinned depths limit kept b) : a.isTruthy = b.isTruthy := by
  rw [← isTruthy_content, content_eq h, isTruthy_content]

theorem display_eq (h : a.Thinned depths limit kept b) : a.display = b.display := by
  rw [← display_content, content_eq h, display_content]

theorem decides_eq (operator : LogicalOperator) (h : a.Thinned depths limit kept b) :
    operator.decides a = operator.decides b := by
  rw [← LogicalOperator.decides_content, content_eq h, LogicalOperator.decides_content]

theorem unary_eq (operator : UnaryOperator) (h : a.Thinned depths limit kept b) :
    operator.apply a = operator.apply b := by
  rw [← UnaryOperator.apply_content, content_eq h, UnaryOperator.apply_content]

theorem binary_eq (operator : BinaryOperator) (h : a.Thinned depths limit kept b)
    (k : c.Thinned depths limit kept d) : operator.apply a c = operator.apply b d := by
  rw [← BinaryOperator.apply_content, content_eq h, content_eq k, BinaryOperator.apply_content]

end Value.Thinned

namespace Machine

/-- More depths may be recorded, for nodes that no function has. -/
theorem Thinned.record (h : m.Thinned depths limit kept m) (hle : limit ≤ high)
    {table : Std.HashMap NodeId Nat} (hd : ∀ id < limit, table[id]? = m.depths[id]?) :
    Thinned (table[·]?) high kept { m with depths := table } { m with depths := table } := by
  have hd : ∀ id < limit, depths id = table[id]? := fun id hid =>
    (h.recorded id).symm.trans (hd id hid).symm
  exact { h with
    store := h.store.mono fun _ _ h => Value.Thinned.congr h hd hle
    fields := h.fields.mono fun _ _ h => Value.Thinned.congr h hd hle
    recorded := fun _ => rfl
    table := rfl }

theorem Thinned.global? (h : m.Thinned depths limit kept n) (name : String) :
    Option.Rel (Value.Thinned depths limit kept) (m.global? name) (n.global? name) := by
  have hget := h.store.get? h.global name
  simp only [Machine.global?, Environment.get?, Environment.global, Environment.chain,
    List.findSome?_cons, List.findSome?_nil]
  revert hget
  generalize m.store.get? 0 name = a
  generalize n.store.get? 0 name = b
  intro hget
  cases hget with
  | none => exact .none
  | some h => exact .some h

namespace ThinnedIn

theorem depths_ne_gap (h : m.ThinnedIn depths limit kept gap names n) {id : NodeId} {name : String}
    (hp : depths id = names.depth? name) {depth : Nat} (hd : n.depths[id]? = some depth) :
    gap ≠ some depth := by
  rw [← h.table, h.recorded, hp] at hd
  exact h.skips.ne_some hd

/-- A variable is found in both machines or in none of them. -/
theorem valueOf? (h : m.ThinnedIn depths limit kept gap names n) {id : NodeId} {name : String}
    (hp : depths id = names.depth? name) :
    Option.Rel (Value.Thinned depths limit kept) (m.valueOf? id name) (n.valueOf? id name) := by
  unfold Machine.valueOf?
  rw [h.table]
  cases hd : n.depths[id]? with
  | none => exact h.global? name
  | some depth => exact h.store.getAt? h.environment (h.depths_ne_gap hp hd) name

/-- So is the scope that an assignment writes. -/
theorem assignee? (h : m.ThinnedIn depths limit kept gap names n) {id : NodeId} {name : String}
    (hp : depths id = names.depth? name) :
    Option.Rel (fun i j => kept[j]? = some i) (m.assignee? id name) (n.assignee? id name) := by
  unfold Machine.assignee?
  rw [h.table]
  cases hd : n.depths[id]? with
  | some depth =>
    simp only [Environment.ancestor?_map_scope]
    exact h.environment.getElem? (h.depths_ne_gap hp hd)
  | none =>
    have hglobal := h.store.get? h.global name
    simp only [Environment.scopeOf?, Environment.global, Environment.chain, List.find?_cons,
      List.find?_nil, Store.binds]
    revert hglobal
    generalize m.store.get? 0 name = a
    generalize n.store.get? 0 name = b
    intro hglobal
    cases hglobal with
    | none => exact .none
    | some => exact .some h.global

end ThinnedIn

end Machine

end

end Lox
