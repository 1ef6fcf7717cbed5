import Lox.Proofs.Evaluation.Dispatch
import Lox.Proofs.Session.Events
import Lox.Proofs.Syntax.Equality

/-!
# Methods of `super`

A `super` expression belongs to the class declaration around it. Wherever the method has been handed to,
the scopes around the expression are those that were made when that declaration was executed and when
the method was bound. So the lookup starts at the class that the declaration found above, and what it
finds is bound to the instance that `this` is there.
-/

namespace Lox

open Procedure

namespace Configuration.Around

variable {d : Configuration} {m : Machine} {env : Environment} {inner : List ScopeId}
  {this : ScopeId} {object : Instance}

/-- The scope of `super` was made before. -/
theorem not_grows (h : d.Around m env inner this object) : ¬ m.Grows d.machine := by
  obtain ⟨c, a, -, -, -, hsuper⟩ := h.above
  have hlt : d.machine.store.size < m.store.size := Store.Extends.get?_lt hsuper
  exact fun hg => absurd hlt (Nat.not_lt.2 hg.store.size)

/-- The declaration is one that inherits. -/
theorem exists_classDef (h : d.Around m env inner this object) :
    ∃ k start name target methods a,
      d = ⟨k + 1, start, .statement (.classDef name (some target) methods)⟩ ∧
      (Expr.reference target).evaluate (k + 1) start = .ok (.ofClass a) start ∧
      m.store.get? start.store.size "super" = some (.ofClass a) := by
  obtain ⟨c, a, hmakes, ha, -, hsuper⟩ := h.above
  cases hmakes with
  | @intro k start name target superclass methods hsuperclass =>
    cases target with
    | none =>
      cases hsuperclass
      cases ha
    | some target =>
      refine ⟨k, start, name, target, methods, a, rfl, ?_, hsuper⟩
      rw [Run.superclass?, bind_apply] at hsuperclass
      rw [Expr.evaluate]
      cases hv : Run.valueOf target.id target.name.text target.name.line start with
      | ok value after =>
        rw [hv] at hsuperclass
        cases value with
        | ofClass found =>
          cases hsuperclass
          cases ha
          rfl
        | _ => cases hsuperclass
      | error e after =>
        rw [hv] at hsuperclass
        cases hsuperclass
      | exhausted =>
        rw [hv] at hsuperclass
        cases hsuperclass

/-- The scope of `super` is as many scopes away as there are inside it. -/
theorem ancestor? (h : d.Around m env inner this object) :
    env.ancestor? (inner.length + 1) = some (d.machine.environment.inner d.machine.store.size) := by
  rw [Environment.ancestor?_eq_some_iff, h.chain]
  simp [List.drop_append]

/-- The scope of `this` is the one before. -/
theorem getAt?_this (h : d.Around m env inner this object) :
    env.getAt? m.store inner.length "this" = some (.ofInstance object) := by
  have hancestor : env.ancestor? inner.length =
      some ⟨this, (d.machine.environment.inner d.machine.store.size).chain⟩ := by
    rw [Environment.ancestor?_eq_some_iff, h.chain, List.drop_left]
    rfl
  rw [Environment.getAt?, hancestor]
  exact h.this

/-- No scope further in binds `this`. -/
theorem get?_this (h : d.Around m env inner this object) :
    env.get? m.store "this" = some (.ofInstance object) := by
  have hnone : inner.findSome? (m.store.get? · "this") = none :=
    List.findSome?_eq_none_iff.2 fun scope hscope => (h.inner scope hscope).2.2
  rw [Environment.get?, h.chain, List.findSome?_append, hnone, Option.none_or,
    List.findSome?_cons, h.this]

end Configuration.Around

namespace Session

/-- `super` dispatches statically and keeps the receiver. Whenever a `super` expression is evaluated in a
session, the execution of a class declaration has begun before that has this expression in its methods
and outside the classes that are declared inside these. The lookup starts at the class that the
superclass expression of this declaration gave then; the scope of `super` that is found is the one that
this execution made. The outcome is the method of the nearest declaration from there on, which all have
begun before, too, and it is bound to the instance that `this` is in the environment of the expression.
It is a failure if none of these declarations has such a method. -/
theorem super_dispatches_statically {programs : List Configuration}
    (h : Course HostFunction.Inert programs) {before later : List Event} {n : Nat} {m : Machine}
    {id : NodeId} {line : Nat} {method : Identifier}
    (hsplit : Configuration.events programs =
      before ++ .begins ⟨n + 1, m, .expression (.super id line method)⟩ :: later) :
    ∃ k start name target methods depth superclass object declarations,
      .begins ⟨k + 1, start, .statement (.classDef name (some target) methods)⟩ ∈ before ∧
      (⟨id, line, method⟩, depth) ∈ Stmt.methodSupers methods ∧
      m.depths[id]? = some depth ∧
      m.environment.ancestor? depth = some (start.environment.inner start.store.size) ∧
      (Expr.reference target).evaluate (k + 1) start = .ok (.ofClass superclass) start ∧
      m.environment.get? m.store "this" = some (.ofInstance object) ∧
      superclass.DeclaredBy declarations ∧ (∀ d ∈ declarations, .begins d ∈ before) ∧
      Dispatches declarations superclass method object m
        ((Expr.super id line method).evaluate (n + 1) m) := by
  have hbegins : Configuration.Begins programs ⟨n + 1, m, .expression (.super id line method)⟩ :=
    Configuration.begins_mem_events.1 (hsplit ▸ List.mem_append_right _ (.head _))
  have hroots := h.rooted hbegins
  obtain ⟨d, inner, this, object, hd, haround, hmem, hdepth⟩ :=
    hroots.supers (⟨id, line, method⟩, 0) (.head _)
  rw [Nat.zero_add] at hmem hdepth
  have hbefore := h.begins_before hsplit hd haround.not_grows
  have hancestor := haround.ancestor?
  obtain ⟨k, start, name, target, methods, superclass, rfl, htarget, hsuper⟩ :=
    haround.exists_classDef
  have hclass : Value.Rooted _ m (.ofClass superclass) := hroots.machine.store _ _ _ hsuper
  obtain ⟨declarations, hdeclared, hall⟩ := h.exists_declaredBy hsplit hclass
  refine ⟨k, start, name, target, methods, inner.length + 1, superclass, object, declarations,
    hbefore, hmem, hdepth, hancestor, htarget, haround.get?_this, hdeclared, hall, ?_⟩
  rw [Expr.evaluate]
  refine Run.dispatches_superMethod hdeclared hroots.machine.global line hdepth ?_ haround.getAt?_this
  rw [Environment.getAt?, hancestor]
  exact hsuper

/-- A class above, a class with an initializer that uses a method of it, and a call. -/
theorem begins_super :
    ∃ programs before later n m, Course HostFunction.Inert programs ∧
      Configuration.events programs =
        before ++ .begins ⟨n + 1, m, .expression (.super 1 1 ⟨"m", 1⟩)⟩ :: later := by
  let methods : List FunctionDef := [⟨⟨"m", 1⟩, [], []⟩]
  let others : List FunctionDef := [⟨⟨"init", 1⟩, [], [.expression (.super 1 1 ⟨"m", 1⟩)]⟩]
  let statements : List Stmt := [.classDef ⟨"A", 1⟩ none methods,
    .classDef ⟨"B", 1⟩ (some ⟨0, ⟨"A", 1⟩⟩) others,
    .expression (.call (.reference ⟨2, ⟨"B", 1⟩⟩) [] 1)]
  have hread : (Reading.ofSource "class A { m() { } } class B < A { init() { super.m; } } B();"
      0).result = .ok statements := by decide +kernel
  have hresolve : resolve statements = .ok [(1, 2)] := by decide +kernel
  have hp : ((start ⟨0⟩).withOutput .unlimited).program? 8 _ = some _ :=
    program?_eq_some hread hresolve
  have hnone : ∀ id : NodeId, id ≠ 1 →
      (Std.HashMap.insertMany ((start ⟨0⟩).withOutput .unlimited).machine.depths
        [(1, 2)])[id]? = none := by
    intro id hid
    have hempty : ((start ⟨0⟩).withOutput .unlimited).machine.depths = ∅ := rfl
    simp [hempty, Ne.symm hid]
  obtain ⟨m, hm, hmachine⟩ : ∃ m : Machine, m =
    { ((start ⟨0⟩).withOutput .unlimited).machine with
      depths := ((start ⟨0⟩).withOutput .unlimited).machine.depths.insertMany [(1, 2)] } ∧
    m.environment = .global ∧ 0 < m.store.size ∧ m.callDepth = 0 ∧ m.maxCallDepth = 255 ∧
    ∀ id, id ≠ 1 → m.depths[id]? = none := ⟨_, rfl, rfl, Nat.one_pos, rfl, rfl, hnone⟩
  rw [← hm] at hp
  obtain ⟨henv, hsize, hcalls, hmost, hnone⟩ := hmachine
  let above := m.declaredClass ⟨"A", 1⟩ none methods
  let middle := m.withClass ⟨"A", 1⟩ none methods
  let below := middle.declaredClass ⟨"B", 1⟩ (some above) others
  let after := middle.withClass ⟨"B", 1⟩ (some above) others
  have hmiddle : 0 < middle.store.size :=
    Nat.lt_of_lt_of_le hsize (Nat.le_of_eq (by simp [middle, Machine.withClass,
      Machine.beforeClass, Store.withSuper, Store.size_put]))
  have hA : middle.valueOf? 0 "A" = some (.ofClass above) :=
    Machine.valueOf?_withClass henv hsize (hnone 0 (by decide))
  have hB : after.valueOf? 2 "B" = some (.ofClass below) :=
    Machine.valueOf?_withClass henv hmiddle (hnone 2 (by decide))
  have hsuperclass : Run.superclass? (some ⟨0, ⟨"A", 1⟩⟩) middle = .ok (some above) middle := by
    rw [Run.superclass?, bind_apply, Run.valueOf_apply, hA]
    rfl
  have hcallee : (Expr.reference ⟨2, ⟨"B", 1⟩⟩).evaluate 6 after = .ok (.ofClass below) after := by
    rw [Expr.evaluate, Run.valueOf_apply, hB]
  have hdepth : after.callDepth < after.maxCallDepth := by
    show m.callDepth < m.maxCallDepth
    rw [hcalls, hmost]
    decide
  have hreach : Configuration.Reaches ⟨8, m, .program statements⟩ _ :=
    .head (.restOfProgram (Stmt.execute_classDef_of_ok (show Run.superclass? none m = _ from rfl))) <|
      .head (.restOfProgram (Stmt.execute_classDef_of_ok hsuperclass)) <| .head .firstOfProgram <|
        .head .expression <| .head (.call hcallee rfl rfl hdepth) <|
          .head (.initializer rfl rfl rfl) <| .head (.functionBody rfl) <|
            .head .firstStatement <| .head .expression .refl
  have hcourse : Course HostFunction.Inert ([] ++ [_]) := .intro (.start ⟨0⟩ .unlimited) hp
  have hbegins := Configuration.begins_mem_events.2 ⟨_, List.mem_singleton.2 rfl, hreach⟩
  obtain ⟨before, later, hsplit⟩ := List.append_of_mem hbegins
  exact ⟨_, before, later, _, _, hcourse, hsplit⟩

theorem super_dispatches_statically_initializer :
    ∃ programs before later n m, Course HostFunction.Inert programs ∧
      Configuration.events programs =
        before ++ .begins ⟨n + 1, m, .expression (.super 1 1 ⟨"m", 1⟩)⟩ :: later ∧
      ∃ superclass object declarations, superclass.DeclaredBy declarations ∧
        (∀ d ∈ declarations, .begins d ∈ before) ∧
        m.environment.get? m.store "this" = some (.ofInstance object) ∧
        Dispatches declarations superclass ⟨"m", 1⟩ object m
          ((Expr.super 1 1 ⟨"m", 1⟩).evaluate (n + 1) m) := by
  obtain ⟨programs, before, later, n, m, h, hsplit⟩ := begins_super
  obtain ⟨k, start, name, target, methods, depth, superclass, object, declarations, -, -, -, -, -,
    hthis, hdeclared, hbefore, hdispatches⟩ := super_dispatches_statically h hsplit
  exact ⟨programs, before, later, n, m, h, hsplit, superclass, object, declarations, hdeclared,
    hbefore, hthis, hdispatches⟩

end Session

end Lox
