import Lox.Proofs.Evaluation.Events
import Lox.Proofs.Evaluation.Hits

/-!
# Names in scopes

Only declarations add names to a scope that is there already, and only to the innermost one. Everything
else that a run does to such a scope is to change the values of names that it binds. The scopes of `this`
and `super` do not change at all.

## Implementation notes

An assignment writes a scope that resolution has found for it, or one that it has searched for; in both
cases the scope binds the name already. So it may not be a scope of `this` or `super`, because those bind
no name that can be assigned to, `Store.Apart`. A declaration does not write such a scope because none is
ever the innermost one, `Machine.Tidy`.

## Main results

* `Machine.Keeps`: what a run keeps of the scopes.
* `Configuration.Sound.endsIn_keeps`: every task keeps it.
-/

namespace Lox

open Procedure Run

/-! ### Scopes of their own -/

namespace Store

variable {α : Type} {s : Store α} {scope other : ScopeId} {name key : String} {value : α}

/-- The scope binds `this` or `super`. -/
def Reserved (s : Store α) (scope : ScopeId) : Prop :=
  ∃ name, ¬ OrdinaryName name ∧ s.binds scope name = true

/-- A scope of `this` or `super` binds no other name. -/
def Apart (s : Store α) : Prop := ∀ scope, (s.scope scope).Apart

theorem put_of_le (name : String) (value : α) (h : s.size ≤ scope) : s.put scope name value = s := by
  obtain ⟨scopes⟩ := s
  simp only [size] at h
  simp [put, Array.modify, Array.modifyM, Nat.not_lt.2 h]

/-- Writing makes one scope bind one name. -/
theorem binds_put (h : scope < s.size) :
    (s.put scope name value).binds other key = true ↔
      other = scope ∧ key = name ∨ s.binds other key = true := by
  rw [binds, get?_put s _ _ _ _ h, binds]
  by_cases hslot : other = scope ∧ key = name
  · simp [hslot]
  · simp [hslot]

/-- A name that was bound already is bound to something else, and nothing else happens to names. -/
theorem binds_put_of_binds (h : scope < s.size) (hbinds : s.binds scope name = true) :
    (s.put scope name value).binds other key = s.binds other key := by
  rw [Bool.eq_iff_iff, binds_put h, or_iff_right_of_imp]
  rintro ⟨rfl, rfl⟩
  exact hbinds

theorem Reserved.congr {t : Store α} (h : s.Reserved scope) (hscope : t.scope scope = s.scope scope) :
    t.Reserved scope := by
  obtain ⟨name, hname, hbinds⟩ := h
  refine ⟨name, hname, ?_⟩
  rwa [binds, get?, hscope]

/-- Writing an ordinary name makes no scope one of `this` or `super`. -/
theorem Reserved.of_put (hname : OrdinaryName name)
    (h : (s.put scope name value).Reserved other) : s.Reserved other := by
  by_cases hscope : scope < s.size
  · obtain ⟨key, hkey, hbinds⟩ := h
    refine ⟨key, hkey, ((binds_put hscope).1 hbinds).resolve_left ?_⟩
    rintro ⟨-, rfl⟩
    exact hkey hname
  · rwa [put_of_le name value (Nat.not_lt.1 hscope)] at h

namespace Apart

/-- A scope that binds an ordinary name is none of `this` or `super`. -/
theorem not_reserved (h : s.Apart) (hname : OrdinaryName name)
    (hbinds : s.binds scope name = true) : ¬ s.Reserved scope := by
  rintro ⟨key, hkey, hbound⟩
  rcases h scope with hnone | hnone
  · rw [binds, get?, hnone name hname] at hbinds
    cases hbinds
  · rw [binds, get?, hnone key hkey] at hbound
    cases hbound

theorem push (h : s.Apart) {bindings : Table α} (hb : bindings.Apart) : (s.push bindings).Apart := by
  intro scope
  rcases Nat.lt_trichotomy scope s.size with hlt | rfl | hgt
  · rw [scope_push_of_lt s bindings hlt]
    exact h scope
  · rwa [scope_push_size]
  · have hnone : (s.push bindings).scopes[scope]? = none := by
      apply Array.getElem?_eq_none
      rw [← size, size_push]
      exact hgt
    rw [Store.scope, hnone]
    exact Table.apart_empty

theorem put (h : s.Apart) (hname : OrdinaryName name) (hfree : ¬ s.Reserved scope) :
    (s.put scope name value).Apart := by
  intro other
  by_cases hother : other = scope
  · subst hother
    right
    intro key hkey
    by_contra hsome
    have hreserved : (s.put other name value).Reserved other :=
      ⟨key, hkey, Option.isSome_iff_ne_none.2 hsome⟩
    exact hfree (hreserved.of_put hname)
  · rw [scope_put_of_ne s name value hother]
    exact h other

end Apart

end Store

/-! ### What a run keeps -/

namespace Machine

/-- The scopes of `this` and `super` bind nothing else, and none of them is the innermost one. -/
structure Tidy (m : Machine) : Prop where
  apart : m.store.Apart
  lt : m.environment.scope < m.store.size
  free : ¬ m.store.Reserved m.environment.scope

/-- The second machine comes after the first one in the same environment, and the scopes of the first one
bind the names that they bound before. Only the innermost scope may bind more, and only if something is
declared. The scopes of `this` and `super` are as before. -/
structure Keeps (declares : Prop) (m after : Machine) : Prop where
  environment : after.environment = m.environment
  size : m.store.size ≤ after.store.size
  binds : ∀ scope < m.store.size, (declares → scope ≠ m.environment.scope) → ∀ name,
    after.store.binds scope name = m.store.binds scope name
  reserved : ∀ scope < m.store.size, after.store.Reserved scope → m.store.Reserved scope
  settled : m.Tidy → after.store.Apart ∧ ∀ scope < m.store.size, m.store.Reserved scope →
    after.store.scope scope = m.store.scope scope

/-- In a new scope of ordinary names anything may be declared. -/
theorem Tidy.inner {m : Machine} (h : m.Tidy) (env : Environment) {bindings : Table Value}
    (hfree : ∀ name, ¬ OrdinaryName name → bindings.get? name = none) :
    Tidy { m with store := m.store.push bindings, environment := env.inner m.store.size } := by
  constructor
  · exact h.apart.push (.inr hfree)
  · show m.store.size < (m.store.push bindings).size
    rw [Store.size_push]
    exact Nat.lt_succ_self _
  · rintro ⟨name, hname, hbinds⟩
    have hsome : ((m.store.push bindings).get? m.store.size name).isSome = true := hbinds
    rw [Store.get?_push_size, hfree name hname] at hsome
    cases hsome

namespace Keeps

variable {m after later : Machine} {declares p : Prop} {name : String} {value : Value}

theorem tidy (h : Keeps declares m after) (hm : m.Tidy) : after.Tidy := by
  constructor
  · exact (h.settled hm).1
  · rw [h.environment]
    exact Nat.lt_of_lt_of_le hm.lt h.size
  · rw [h.environment]
    exact fun hafter => hm.free (h.reserved _ hm.lt hafter)

theorem of_store (henv : after.environment = m.environment) (hstore : after.store = m.store) :
    Keeps declares m after := by
  refine ⟨henv, hstore ▸ Nat.le_refl _, ?_, ?_, ?_⟩
  · rw [hstore]
    exact fun _ _ _ _ => rfl
  · rw [hstore]
    exact fun _ _ h => h
  · rw [hstore]
    exact fun hm => ⟨hm.apart, fun _ _ _ => rfl⟩

theorem refl (m : Machine) : Keeps declares m m := of_store rfl rfl

theorem trans (h : Keeps declares m after) (k : Keeps declares after later) :
    Keeps declares m later where
  environment := k.environment.trans h.environment
  size := Nat.le_trans h.size k.size
  binds scope hlt hfree name := by
    have hfree' : declares → scope ≠ after.environment.scope := h.environment ▸ hfree
    rw [k.binds scope (Nat.lt_of_lt_of_le hlt h.size) hfree' name, h.binds scope hlt hfree name]
  reserved scope hlt hlater :=
    h.reserved scope hlt (k.reserved scope (Nat.lt_of_lt_of_le hlt h.size) hlater)
  settled hm := by
    obtain ⟨-, hsame⟩ := h.settled hm
    obtain ⟨hlater, hsame'⟩ := k.settled (h.tidy hm)
    refine ⟨hlater, fun scope hlt hreserved => ?_⟩
    have hscope := hsame scope hlt hreserved
    exact (hsame' scope (Nat.lt_of_lt_of_le hlt h.size) (hreserved.congr hscope)).trans hscope

theorem mono (h : Keeps p m after) (hp : p → declares) : Keeps declares m after :=
  ⟨h.environment, h.size, fun scope hlt hfree => h.binds scope hlt (hfree ∘ hp), h.reserved, h.settled⟩

theorem push (m : Machine) {bindings : Table Value} (hb : bindings.Apart) :
    Keeps declares m { m with store := m.store.push bindings } := by
  have hscope : ∀ scope < m.store.size, (m.store.push bindings).scope scope = m.store.scope scope :=
    fun scope hlt => Store.scope_push_of_lt m.store bindings hlt
  have hbinds : ∀ scope < m.store.size, ∀ name,
      (m.store.push bindings).binds scope name = m.store.binds scope name := by
    intro scope hlt name
    rw [Store.binds, Store.get?, hscope scope hlt]
    rfl
  refine ⟨rfl, ?_, fun scope hlt _ => hbinds scope hlt, ?_, ?_⟩
  · rw [Store.size_push]
    exact Nat.le_succ _
  · rintro scope hlt ⟨name, hname, hbound⟩
    exact ⟨name, hname, (hbinds scope hlt name).symm.trans hbound⟩
  · exact fun hm => ⟨hm.apart.push hb, fun scope hlt _ => hscope scope hlt⟩

/-- An ordinary name is written to a scope that is none of `this` or `super`. -/
theorem put {scope : ScopeId} (hname : OrdinaryName name)
    (hbinds : ∀ other < m.store.size, (declares → other ≠ m.environment.scope) → ∀ key,
      (m.store.put scope name value).binds other key = m.store.binds other key)
    (hfree : m.Tidy → ¬ m.store.Reserved scope) :
    Keeps declares m { m with store := m.store.put scope name value } := by
  refine ⟨rfl, Nat.le_of_eq (Store.size_put ..).symm, hbinds, fun other _ h => h.of_put hname, ?_⟩
  intro hm
  refine ⟨hm.apart.put hname (hfree hm), fun other _ hreserved => ?_⟩
  apply Store.scope_put_of_ne
  rintro rfl
  exact hfree hm hreserved

/-- A declaration writes the innermost scope. -/
theorem define (m : Machine) (hname : OrdinaryName name) (value : Value) :
    Keeps True m { m with store := m.environment.define m.store name value } := by
  apply put hname
  · intro other _ hother key
    rw [Store.binds, Store.get?, Store.scope_put_of_ne _ _ _ (hother trivial)]
    rfl
  · exact fun hm => hm.free

/-- An assignment writes a scope that binds the name already. -/
theorem assign {scope : ScopeId} (hname : OrdinaryName name)
    (hbinds : m.store.binds scope name = true) :
    Keeps declares m { m with store := m.store.put scope name value } := by
  have hlt : scope < m.store.size := by
    obtain ⟨old, hold⟩ := Option.isSome_iff_exists.1 hbinds
    exact Store.Extends.get?_lt hold
  apply put hname
  · exact fun other _ _ key => Store.binds_put_of_binds hlt hbinds
  · exact fun hm => hm.apart.not_reserved hname hbinds

/-- What is declared in a new scope changes none of the scopes that were there before. -/
theorem inside {env : Environment} {bindings : Table Value} {inner : Machine}
    (hfree : ∀ name, ¬ OrdinaryName name → bindings.get? name = none)
    (h : Keeps True { m with
      store := m.store.push bindings, environment := env.inner m.store.size } inner) :
    Keeps declares m { inner with environment := m.environment } := by
  have hpush : Keeps declares m { m with store := m.store.push bindings } := push m (.inr hfree)
  have hlt : ∀ scope < m.store.size, scope < (m.store.push bindings).size := by
    intro scope hscope
    rw [Store.size_push]
    exact Nat.lt_succ_of_lt hscope
  constructor
  · rfl
  · exact Nat.le_trans hpush.size h.size
  · intro scope hscope hold name
    have hother : scope ≠ m.store.size := Nat.ne_of_lt hscope
    exact (h.binds scope (hlt scope hscope) (fun _ => hother) name).trans
      (hpush.binds scope hscope hold name)
  · intro scope hscope hreserved
    exact hpush.reserved scope hscope (h.reserved scope (hlt scope hscope) hreserved)
  · intro hm
    obtain ⟨-, hsame⟩ := hpush.settled hm
    obtain ⟨hafter, hsame'⟩ := h.settled (hm.inner env hfree)
    refine ⟨hafter, fun scope hscope hreserved => ?_⟩
    have hstill := hreserved.congr (hsame scope hscope hreserved)
    exact (hsame' scope (hlt scope hscope) hstill).trans (hsame scope hscope hreserved)

end Keeps

instance (declares : Prop) : Machine.Additive (Machine.Keeps declares) where
  refl := .refl
  trans := .trans
  printed _ _ := .of_store rfl rfl
  numbered _ _ := .of_store rfl rfl
  instantiated _ := .of_store rfl rfl
  opened m _ hb := .push m hb

end Machine

/-! ### Steps -/

namespace Run

variable {α : Type} {declares p : Prop} {m : Machine} {x : Run α}

theorem Leads.mono (h : Leads (Machine.Keeps p) m x) (hp : p → declares) :
    Leads (Machine.Keeps declares) m x := fun after hafter => (h after hafter).mono hp

theorem define_keeps {name : String} (hname : OrdinaryName name) (value : Value) :
    Leads (Machine.Keeps True) m (define name value) := .update (.define m hname value)

theorem assign_keeps {target : Reference} (hname : OrdinaryName target.name.text) (value : Value)
    (hbinds : ∀ scope, m.assignee? target.id target.name.text = some scope →
      m.store.binds scope target.name.text = true) :
    Leads (Machine.Keeps declares) m (assign target value) := by
  intro after hafter
  rw [assign_apply] at hafter
  cases hscope : m.assignee? target.id target.name.text with
  | some scope =>
    rw [hscope] at hafter
    cases hafter
    exact .assign hname (hbinds scope hscope)
  | none =>
    rw [hscope] at hafter
    cases hafter
    exact .refl m

theorem setField_keeps (object : Instance) (name : String) (value : Value) :
    Leads (Machine.Keeps declares) m (setField object name value) := .update (.of_store rfl rfl)

theorem asCall_keeps {line : Nat} (h : m.callDepth < m.maxCallDepth →
      Leads (Machine.Keeps declares) { m with callDepth := m.callDepth + 1 } x) :
    Leads (Machine.Keeps declares) m (asCall line x) := by
  intro after hafter
  rw [asCall_apply] at hafter
  split at hafter
  · cases hafter
    exact .refl m
  · next hroom =>
    rw [state?_afterwards] at hafter
    obtain ⟨inner, hinner, rfl⟩ := Option.map_eq_some_iff.1 hafter
    have hkeeps := h (Nat.lt_of_not_le hroom) inner hinner
    exact ⟨hkeeps.environment, hkeeps.size, hkeeps.binds, hkeeps.reserved,
      fun hm => hkeeps.settled ⟨hm.apart, hm.lt, hm.free⟩⟩

/-- A run in a new scope of ordinary names. -/
theorem inside_keeps {env : Environment} {bindings : Table Value}
    (hfree : ∀ name, ¬ OrdinaryName name → bindings.get? name = none)
    (h : Leads (Machine.Keeps True) { m with
      store := m.store.push bindings, environment := env.inner m.store.size } x) :
    Leads (Machine.Keeps declares) m (newScope env bindings >>= fun frame => inEnvironment frame x) := by
  intro after hafter
  rw [bind_apply_of_ok (newScope_apply env bindings m), inEnvironment_apply,
    state?_afterwards] at hafter
  obtain ⟨inner, hinner, rfl⟩ := Option.map_eq_some_iff.1 hafter
  exact .inside hfree (h inner hinner)

end Run

/-! ### Tasks -/

/-- The task is a declaration, or it comes to those in a list of statements. -/
def Task.Declares : Task → Prop
  | .statement s => s.declared? ≠ none
  | .statements _ | .program _ => True
  | _ => False

namespace Configuration

variable {depths : Depths} {limit : NodeId} {n : Nat} {m : Machine}

/-- All tasks that the task starts keep the names of scopes. -/
def PartsKeep (c : Configuration) : Prop :=
  ∀ d, c.Starts d → d.EndsIn (Machine.Keeps d.task.Declares)

/-- When the value of an assignment has been evaluated, the scope that will be written binds the name. -/
theorem binds_assignee {target : Reference} {value : Expr} {a : Value} {after : Machine} {scope : ScopeId}
    (h : Configuration.Sound depths limit ⟨n + 1, m, .expression (.assign target value)⟩)
    (ho : value.evaluate n m = .ok a after)
    (hscope : after.assignee? target.id target.name.text = some scope) :
    after.store.binds scope target.name.text = true := by
  have hdepths : after.depths = m.depths := (((runsRestore n).evaluate value m).of_ok ho).depths
  rw [Machine.assignee?, hdepths] at hscope
  cases hdepth : m.depths[target.id]? with
  | none =>
    rw [hdepth] at hscope
    exact List.find?_some (p := (after.store.binds · target.name.text)) hscope
  | some depth =>
    rw [hdepth] at hscope
    obtain ⟨outer, hancestor, rfl⟩ := Option.map_eq_some_iff.1 hscope
    obtain ⟨-, old, hbinds⟩ := (h.hits depth hdepth).2 n a after ho
    have hold := hbinds.getAt?
    rw [Environment.getAt?, hancestor] at hold
    exact Option.isSome_iff_exists.2 ⟨old, hold⟩

theorem keeps_expression {e : Expr} (h : Configuration.Sound depths limit ⟨n + 1, m, .expression e⟩)
    (hparts : PartsKeep ⟨n + 1, m, .expression e⟩) :
    Run.Leads (Machine.Keeps False) m (e.evaluate (n + 1)) := by
  cases e with
  | literal value => exact .pure _
  | grouping inner => exact hparts _ .inner
  | unary operator operand line => exact .bind (hparts _ .operand) fun _ _ _ => .located _ _
  | binary left operator right line =>
    exact .bind (hparts _ .left) fun _ _ ho => .bind (hparts _ (.right ho)) fun _ _ _ => .located _ _
  | logical left operator right =>
    rw [Expr.evaluate]
    refine .bind (hparts _ .decider) fun a after ho => ?_
    split
    · exact .pure _
    · next hdecides => exact hparts _ (.undecided ho (Bool.eq_false_iff.2 hdecides))
  | reference target => exact .valueOf _ _ _
  | assign target value =>
    obtain ⟨names, hready, hname, -⟩ := id h
    refine .bind (hparts _ .assigned) fun a after ho => ?_
    exact .bind (assign_keeps hname a fun _ => binds_assignee h ho) fun _ _ _ => .pure _
  | call callee arguments line =>
    rw [Expr.evaluate]
    refine .bind (hparts _ .callee) fun f after hcallee => ?_
    refine .bind (hparts _ (.arguments hcallee)) fun values later harguments => ?_
    split
    · exact .raise _ _
    · next arity harity =>
      split
      · next hlength =>
        subst hlength
        exact asCall_keeps fun hdepth => hparts _ (.call hcallee harguments harity hdepth)
      · exact .raise _ _
  | get object name =>
    rw [Expr.evaluate]
    refine .bind (hparts _ .getObject) fun found after ho => ?_
    split
    · exact .property _ _
    · exact .raise _ _
  | set object name value =>
    rw [Expr.evaluate]
    refine .bind (hparts _ .setObject) fun found after ho => ?_
    split
    · exact .bind (hparts _ (.setValue ho)) fun _ _ _ => .bind (setField_keeps _ _ _) fun _ _ _ => .pure _
    · exact .raise _ _
  | this id line => exact .valueOf _ _ _
  | super id line method => exact .superMethod _ _ _

theorem keeps_arguments {es : List Expr} (hparts : PartsKeep ⟨n + 1, m, .arguments es⟩) :
    Run.Leads (Machine.Keeps False) m (evaluateAll (n + 1) es) := by
  cases es with
  | nil => exact .pure _
  | cons e rest =>
    exact .bind (hparts _ .firstArgument) fun _ _ ho =>
      .bind (hparts _ (.otherArguments ho)) fun _ _ _ => .pure _

theorem keeps_application {callee : Value} {arguments : List Value} {line : Nat}
    (hparts : PartsKeep ⟨n + 1, m, .application callee arguments line⟩) :
    Run.Leads (Machine.Keeps False) m (callee.apply (n + 1) arguments line) := by
  cases callee with
  | native f => exact .callHost _ _ _
  | function f => exact hparts _ .function
  | ofClass c =>
    rw [Value.apply]
    refine .bind (.instantiate c) fun object after hobject => ?_
    split
    · next f hinit =>
      refine .bind (.bindMethod f object) fun bound later hbound => ?_
      exact .bind (hparts _ (.initializer hobject hinit hbound)) fun _ _ _ => .pure _
    · exact .pure _
  | _ => exact .raise _ _

/-- The parameters of a function are ordinary names. -/
theorem frame_free {f : Function} {arguments : List Value} {line : Nat}
    (h : Configuration.Sound depths limit ⟨n, m, .entry f arguments line⟩) (name : String)
    (hname : ¬ OrdinaryName name) :
    (Table.ofList (f.declaration.paramNames.zip arguments)).get? name = none := by
  obtain ⟨-, ⟨names, -, hcoded, -⟩, -⟩ := h
  rw [Option.eq_none_iff_forall_ne_some]
  intro value hvalue
  exact hname (hcoded.params.2 name (List.of_mem_zip (Table.mem_of_get?_ofList hvalue)).1)

theorem keeps_entry {f : Function} {arguments : List Value} {line : Nat}
    (h : Configuration.Sound depths limit ⟨n + 1, m, .entry f arguments line⟩)
    (hparts : PartsKeep ⟨n + 1, m, .entry f arguments line⟩) :
    Run.Leads (Machine.Keeps False) m (f.enter (n + 1) arguments line) := by
  rw [Function.enter_succ]
  refine .bind ?_ fun completion after _ => .callResult f line completion
  exact inside_keeps (frame_free h) (hparts _ (.functionBody rfl))

/-- A statement that declares nothing. -/
theorem keeps_statement {s : Stmt} (h : Configuration.Sound depths limit ⟨n + 1, m, .statement s⟩)
    (hparts : PartsKeep ⟨n + 1, m, .statement s⟩) (hd : s.declared? = none) :
    Run.Leads (Machine.Keeps False) m (s.execute (n + 1)) := by
  obtain ⟨names, hready, hcoded⟩ := h
  cases s with
  | expression value => exact .bind (hparts _ .expression) fun _ _ _ => .pure _
  | print value =>
    exact .bind (hparts _ .printed) fun _ _ _ => .bind (.write _ _) fun _ _ _ =>
      .bind (.write _ _) fun _ _ _ => .pure _
  | block body =>
    exact inside_keeps (fun _ _ => rfl) (hparts _ (.block rfl))
  | conditional condition thenBranch elseBranch =>
    rw [Stmt.execute_conditional]
    refine .bind (hparts _ .condition) fun a after ho => ?_
    split
    · next ha =>
      exact Leads.mono (hparts _ (.thenBranch ho ha)) fun hdeclares => hdeclares hcoded.thenBranch.2.2
    · next ha =>
      cases elseBranch with
      | none => exact .pure _
      | some elseBranch =>
        exact Leads.mono (hparts _ (.elseBranch ho (Bool.eq_false_iff.2 ha)))
          fun hdeclares => hdeclares hcoded.elseBranch.2
  | whileLoop condition body => exact hparts _ .whileLoop
  | ret line value =>
    cases value with
    | none => exact .pure _
    | some value => exact .bind (hparts _ .result) fun _ _ _ => .pure _
  | _ => cases hd

/-- A declaration. -/
theorem keeps_declaration {s : Stmt} (h : Configuration.Sound depths limit ⟨n + 1, m, .statement s⟩)
    (hparts : PartsKeep ⟨n + 1, m, .statement s⟩) (hd : s.declared? ≠ none) :
    Run.Leads (Machine.Keeps True) m (s.execute (n + 1)) := by
  obtain ⟨names, hready, hcoded⟩ := h
  cases s with
  | var name initial =>
    have hname : OrdinaryName name.text := hcoded.placed.1
    rw [Stmt.execute_var]
    refine .bind ?_ fun value after _ => .bind (define_keeps hname value) fun _ _ _ => .pure _
    cases initial with
    | none => exact .pure _
    | some e => exact Leads.mono (hparts _ .initial) False.elim
  | function declaration =>
    exact .bind (.read _) fun _ _ _ => .bind (.freshIdentity 1) fun _ _ _ =>
      .bind (define_keeps hcoded.placed.1 _) fun _ _ _ => .pure _
  | classDef name superclass methods =>
    have hname := KeepsSound.ordinary_of_classDef hcoded.placed
    rw [Stmt.execute_classDef]
    exact .bind (.superclass? superclass) fun c _ _ => .bind (define_keeps hname _) fun _ _ _ =>
      .bind (.methodClosure c) fun _ _ _ => .bind (.freshIdentity _) fun _ _ _ =>
      .bind (define_keeps hname _) fun _ _ _ => .pure _
  | _ => exact absurd rfl hd

theorem keeps_statements {body : List Stmt} (hparts : PartsKeep ⟨n + 1, m, .statements body⟩) :
    Run.Leads (Machine.Keeps True) m (executeAll (n + 1) body) := by
  cases body with
  | nil => exact .pure _
  | cons s rest =>
    rw [executeAll]
    refine .bind (Leads.mono (hparts _ .firstStatement) fun _ => trivial) fun completion after ho => ?_
    cases completion with
    | returned value => exact .pure _
    | normal => exact hparts _ (.otherStatements ho)

theorem keeps_loop {condition : Expr} {body : Stmt}
    (h : Configuration.Sound depths limit ⟨n + 1, m, .loop condition body⟩)
    (hparts : PartsKeep ⟨n + 1, m, .loop condition body⟩) :
    Run.Leads (Machine.Keeps False) m (repeatWhile (n + 1) condition body) := by
  obtain ⟨names, hready, -, -, hd⟩ := h
  rw [repeatWhile]
  refine .bind (hparts _ .loopCondition) fun a after hcondition => ?_
  split
  · next ha =>
    have hbody := Leads.mono (hparts _ (.loopBody hcondition ha)) fun hdeclares => hdeclares hd
    refine .bind hbody fun completion later ho => ?_
    cases completion with
    | returned value => exact .pure _
    | normal => exact hparts _ (.nextRound hcondition ha ho)
  · exact .pure _

theorem keeps_program {statements : List Stmt} (hparts : PartsKeep ⟨n, m, .program statements⟩) :
    Run.Leads (Machine.Keeps True) m (runProgram n statements) := by
  cases statements with
  | nil => exact .pure _
  | cons s rest =>
    rw [runProgram]
    exact .bind (Leads.mono (hparts _ .firstOfProgram) fun _ => trivial) fun _ _ ho =>
      hparts _ (.restOfProgram ho)

/-- However a task ends, it adds no names to a scope that was there before, unless it is a declaration. -/
theorem Sound.endsIn_keeps {c : Configuration} (h : c.Sound depths limit) :
    c.EndsIn (Machine.Keeps c.task.Declares) := by
  induction c using induction with
  | h c ih =>
    have hparts : c.PartsKeep := fun d hstart => ih d hstart (h.starts hstart)
    obtain ⟨n, m, task⟩ := c
    match n, task with
    | n + 1, .expression e => exact keeps_expression h hparts
    | n + 1, .arguments es => exact keeps_arguments hparts
    | n + 1, .application callee arguments line => exact keeps_application hparts
    | n + 1, .entry f arguments line => exact keeps_entry h hparts
    | n + 1, .statement s =>
      by_cases hd : s.declared? = none
      · exact Leads.mono (keeps_statement h hparts hd) False.elim
      · exact Leads.mono (keeps_declaration h hparts hd) fun _ => hd
    | n + 1, .statements body => exact keeps_statements hparts
    | n + 1, .loop condition body => exact keeps_loop h hparts
    | n, .program statements => exact keeps_program hparts
    | 0, .expression _ | 0, .arguments _ | 0, .application _ _ _ | 0, .entry _ _ _ | 0, .statement _
    | 0, .statements _ | 0, .loop _ _ => exact nofun

/-- Every part of a run finds the scopes of `this` and `super` apart. -/
theorem Sound.starts_tidy {c d : Configuration} (h : c.Sound depths limit) (hc : c.machine.Tidy)
    (hstart : c.Starts d) : d.machine.Tidy := by
  have hparts : ∀ e, c.Starts e → e.EndsIn (Machine.Keeps True) := fun e he after hafter =>
    ((h.starts he).endsIn_keeps after hafter).mono fun _ => trivial
  obtain ⟨between, hkeeps, henters⟩ := hstart.between hparts
  have hbetween := hkeeps.tidy hc
  cases henters with
  | here => exact hbetween
  | call => exact ⟨hbetween.apart, hbetween.lt, hbetween.free⟩
  | block => exact hbetween.inner _ fun _ _ => rfl
  | entry => exact hbetween.inner _ (frame_free h)

theorem Sound.reaches_tidy {c d : Configuration} (h : c.Sound depths limit) (hc : c.machine.Tidy)
    (hreach : c.Reaches d) : d.machine.Tidy := by
  induction hreach with
  | refl => exact hc
  | tail hreach hstep ih => exact (h.reaches hreach).starts_tidy ih hstep

end Configuration

end Lox
