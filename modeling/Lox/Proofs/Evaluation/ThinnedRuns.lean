import Lox.Proofs.Evaluation.Bounds
import Lox.Proofs.Evaluation.ThinnedSteps

/-!
# Evaluation on thinned machines

Code runs the same way on a machine and on the thinned one, wherever resolution has placed it: by
induction on the bound, with one case for each form of expression and statement. So do runs without a
bound, and loops.
-/

namespace Lox

open Procedure Run

/-- Both end normally, or both return the same value. -/
inductive Completion.Thinned (depths : Depths) (limit : NodeId) (kept : List ScopeId) :
    Completion → Completion → Prop where
  | normal : Completion.Thinned depths limit kept .normal .normal
  | returned {a b} (h : a.Thinned depths limit kept b) :
      Completion.Thinned depths limit kept (.returned a) (.returned b)

/-- The same values one by one. -/
abbrev ValuesThinned (depths : Depths) (limit : NodeId) (kept : List ScopeId) :
    List Value → List Value → Prop := List.Forall₂ (Value.Thinned depths limit kept)

/-- What runs the same way with the bound `bound`. What declares a name needs an innermost scope that is
not the gap. -/
structure RunsThinned (depths : Depths) (limit : NodeId) (bound : Nat) : Prop where
  evaluate : ∀ {kept gap names m n} (e : Expr), m.ThinnedIn depths limit kept gap names n →
    e.Placed depths names →
    Thins depths limit kept m n (e.evaluate bound) (e.evaluate bound) (Value.Thinned depths limit)
  evaluateAll : ∀ {kept gap names m n} (es : List Expr), m.ThinnedIn depths limit kept gap names n →
    Expr.PlacedAll depths names es →
    Thins depths limit kept m n (evaluateAll bound es) (evaluateAll bound es)
      (ValuesThinned depths limit)
  apply : ∀ {kept gap names m n as bs} {a b : Value} (line : Nat),
    m.ThinnedIn depths limit kept gap names n →
    a.Thinned depths limit kept b → ValuesThinned depths limit kept as bs →
    Thins depths limit kept m n (a.apply bound as line) (b.apply bound bs line)
      (Value.Thinned depths limit)
  enter : ∀ {kept gap names m n as bs} {f g : Function} (line : Nat),
    m.ThinnedIn depths limit kept gap names n →
    f.Thinned depths limit [] kept g → ValuesThinned depths limit kept as bs →
    Thins depths limit kept m n (f.enter bound as line) (g.enter bound bs line)
      (Value.Thinned depths limit)
  execute : ∀ {kept gap names m n} (s : Stmt), m.ThinnedIn depths limit kept gap names n →
    s.PlacedBelow depths limit names → (gap = some 0 → s.declared? = none) →
    Thins depths limit kept m n (s.execute bound) (s.execute bound) (Completion.Thinned depths limit)
  executeAll : ∀ {kept gap names m n} (body : List Stmt), m.ThinnedIn depths limit kept gap names n →
    Stmt.PlacedAllBelow depths limit names body → gap ≠ some 0 →
    Thins depths limit kept m n (executeAll bound body) (executeAll bound body)
      (Completion.Thinned depths limit)
  repeatWhile : ∀ {kept gap names m n} (condition : Expr) (body : Stmt),
    m.ThinnedIn depths limit kept gap names n → condition.Placed depths names →
    body.PlacedBelow depths limit names → body.declared? = none →
    Thins depths limit kept m n (repeatWhile bound condition body) (repeatWhile bound condition body)
      (Completion.Thinned depths limit)

section

variable {depths : Depths} {limit : NodeId} {kept : List ScopeId} {gap : Option Nat}
  {names : ScopeNames} {m n : Machine} {bound : Nat}

namespace RunsThinned

theorem succ_evaluate (ih : RunsThinned depths limit bound) (e : Expr)
    (h : m.ThinnedIn depths limit kept gap names n) (hp : e.Placed depths names) :
    Thins depths limit kept m n (e.evaluate (bound + 1)) (e.evaluate (bound + 1))
      (Value.Thinned depths limit) := by
  cases e with
  | literal value =>
    rw [Expr.evaluate]
    exact .pure h.toThinned (.of_isPlain (Value.isPlain_ofLiteral value))
  | grouping inner =>
    rw [Expr.evaluate]
    exact ih.evaluate inner h hp
  | unary operator operand line =>
    rw [Expr.evaluate]
    refine Thins.bind h (ih.evaluate operand h hp) fun later a b after last hle h hab => ?_
    exact .unary line h.toThinned operator hab
  | binary left operator right line =>
    rw [Expr.evaluate]
    refine Thins.bind h (ih.evaluate left h hp.1) fun later a b after last hle h hab => ?_
    refine Thins.bind h (ih.evaluate right h hp.2) fun later c d after last hle h hcd => ?_
    exact .binary line h.toThinned operator (Value.Thinned.mono hab hle) hcd
  | logical left operator right =>
    rw [Expr.evaluate]
    refine Thins.bind h (ih.evaluate left h hp.1) fun later a b after last hle h hab => ?_
    rw [Value.Thinned.decides_eq operator hab]
    split
    · exact .pure h.toThinned hab
    · exact ih.evaluate right h hp.2
  | reference target =>
    rw [Expr.evaluate]
    exact .valueOf _ h hp
  | assign target value =>
    rw [Expr.evaluate]
    refine Thins.bind h (ih.evaluate value h hp.2.2) fun later a b after last hle h hab => ?_
    refine Thins.bind h (.assign h hp.2.1 hab) fun later _ _ after last hle h _ => ?_
    exact .pure h.toThinned (Value.Thinned.mono hab hle)
  | call callee arguments line =>
    rw [Expr.evaluate]
    refine Thins.bind h (ih.evaluate callee h hp.1) fun later a b after last hle h hab => ?_
    refine Thins.bind h (ih.evaluateAll arguments h hp.2) fun later as bs after last hle h habs => ?_
    replace hab := Value.Thinned.mono hab hle
    rw [Value.Thinned.arity?_eq hab, habs.length_eq]
    cases b.arity? with
    | none => exact .raise h.toThinned _ line
    | some arity =>
      simp only
      split
      · exact .asCall line h fun after last h => ih.apply line h hab habs
      · exact .raise h.toThinned _ line
  | get object name =>
    rw [Expr.evaluate]
    refine Thins.bind h (ih.evaluate object h hp) fun later a b after last hle h hab => ?_
    cases hab with
    | ofInstance hobject => exact .property h hobject name
    | _ => exact .raise h.toThinned _ _
  | set object name value =>
    rw [Expr.evaluate]
    refine Thins.bind h (ih.evaluate object h hp.1) fun later a b after last hle h hab => ?_
    cases hab with
    | ofInstance hobject =>
      refine Thins.bind h (ih.evaluate value h hp.2) fun later c d after last hle h hcd => ?_
      refine Thins.bind h (.setField h.toThinned (Instance.Thinned.mono hobject hle) _ hcd)
        fun later _ _ after last hle h _ => ?_
      exact .pure h.toThinned (Value.Thinned.mono hcd hle)
    | _ => exact .raise h.toThinned _ _
  | this id line =>
    rw [Expr.evaluate]
    obtain ⟨depth, hthis, hid⟩ := hp
    exact .valueOf line h (hid.trans hthis.symm)
  | super id line method =>
    rw [Expr.evaluate]
    obtain ⟨depth, hthis, hsuper, hid⟩ := hp
    exact .superMethod line h hthis hsuper hid method

theorem succ_evaluateAll (ih : RunsThinned depths limit bound) (es : List Expr)
    (h : m.ThinnedIn depths limit kept gap names n) (hp : Expr.PlacedAll depths names es) :
    Thins depths limit kept m n (Lox.evaluateAll (bound + 1) es) (Lox.evaluateAll (bound + 1) es)
      (ValuesThinned depths limit) := by
  cases es with
  | nil => exact .pure h.toThinned .nil
  | cons e rest =>
    rw [Lox.evaluateAll]
    refine Thins.bind h (ih.evaluate e h hp.1) fun later a b after last hle h hab => ?_
    refine Thins.bind h (ih.evaluateAll rest h hp.2) fun later as bs after last hle h habs => ?_
    exact .pure h.toThinned (.cons (Value.Thinned.mono hab hle) habs)

theorem mono_values {later : List ScopeId} {as bs : List Value}
    (h : ValuesThinned depths limit kept as bs) (hle : kept <+: later) :
    ValuesThinned depths limit later as bs := h.imp fun _ _ h => Value.Thinned.mono h hle

theorem succ_apply (ih : RunsThinned depths limit bound) {a b : Value} {as bs : List Value} (line : Nat)
    (h : m.ThinnedIn depths limit kept gap names n) (hab : a.Thinned depths limit kept b)
    (habs : ValuesThinned depths limit kept as bs) :
    Thins depths limit kept m n (a.apply (bound + 1) as line) (b.apply (bound + 1) bs line)
      (Value.Thinned depths limit) := by
  cases hab with
  | native f =>
    rw [Value.apply, Value.apply]
    exact .callHost line h.toThinned f habs
  | function hfg =>
    rw [Value.apply, Value.apply]
    exact ih.enter line h hfg habs
  | @ofClass c d hcd =>
    rw [Value.apply, Value.apply]
    refine Thins.bind h (.instantiate h.toThinned hcd) fun later a b after last hle h hobject => ?_
    have hinit : Option.Rel _ c.initializer? d.initializer? := hcd.findMethod? initializerName
    revert hinit
    generalize c.initializer? = f
    generalize d.initializer? = g
    intro hinit
    cases hinit with
    | none => exact .pure h.toThinned (.ofInstance hobject)
    | some hfg =>
      replace habs := mono_values habs hle
      refine Thins.bind h (.bindMethod h (hfg.mono hle) hobject)
        fun later f g after last hle h hbound => ?_
      refine Thins.bind h (ih.enter line h hbound (mono_values habs hle))
        fun final _ _ after last hle' h _ => ?_
      exact .pure h.toThinned (Value.Thinned.mono (.ofInstance hobject) (hle.trans hle'))
  | _ => exact .raise h.toThinned _ line

theorem callResult (h : m.Thinned depths limit kept n) {f g : Function}
    (hfg : f.Thinned depths limit [] kept g) (line : Nat) {c d : Completion}
    (hcd : c.Thinned depths limit kept d) :
    Thins depths limit kept m n (Run.callResult f line c) (Run.callResult g line d)
      (Value.Thinned depths limit) := by
  obtain ⟨around, outer, hclosure, hskips, -, hthis⟩ := hfg.closure
  unfold Run.callResult
  rw [← hfg.isInitializer]
  split
  · next hinit =>
    -- The scope of `this` is the innermost one, and it has a name, so that it is not the gap.
    obtain ⟨inner, rfl⟩ := hthis hinit
    have hobject := h.store.getAt? hclosure hskips.ne_zero "this"
    refine Thins.read ?_
    revert hobject
    generalize f.closure.getAt? m.store 0 "this" = a
    generalize g.closure.getAt? n.store 0 "this" = b
    intro hobject
    cases hobject with
    | none => exact .raise h _ line
    | some hobject => exact .pure h hobject
  · cases hcd with
    | normal => exact .pure h .nil
    | returned hab => exact .pure h hab

theorem callBody (ih : RunsThinned depths limit bound) {f g : Function} {as bs : List Value}
    (h : m.ThinnedIn depths limit kept gap names n) (hfg : f.Thinned depths limit [] kept g)
    (habs : ValuesThinned depths limit kept as bs) :
    Thins depths limit kept m n (Run.callBody bound f as) (Run.callBody bound g bs)
      (Completion.Thinned depths limit) := by
  obtain ⟨around, outer, hclosure, hskips, hplaced, -⟩ := hfg.closure
  rw [Run.callBody, Run.callBody, ← hfg.declaration]
  have hbindings : Table.Alike .refl _ _ _ := .zip habs (f.declaration.params.map Identifier.text)
  rw [show Renaming.refl.apply = id from rfl, List.map_id] at hbindings
  refine Thins.bind h (.newScope h.toThinned hclosure hbindings)
    fun later env other after last hle h henv => ?_
  refine .inEnvironment h.toThinned henv (hskips.push f.declaration.paramNames.reverse)
    fun after last h => ?_
  exact ih.executeAll _ h hplaced.body (by cases around <;> simp)

theorem succ_enter (ih : RunsThinned depths limit bound) {f g : Function} {as bs : List Value}
    (line : Nat) (h : m.ThinnedIn depths limit kept gap names n)
    (hfg : f.Thinned depths limit [] kept g) (habs : ValuesThinned depths limit kept as bs) :
    Thins depths limit kept m n (f.enter (bound + 1) as line) (g.enter (bound + 1) bs line)
      (Value.Thinned depths limit) := by
  rw [Function.enter_succ, Function.enter_succ]
  refine Thins.bind h (ih.callBody h hfg habs) fun later c d after last hle h hcd => ?_
  exact callResult h.toThinned (hfg.mono hle) line hcd

/-- The value that a variable is declared with, or that a statement returns. -/
theorem initialValue (ih : RunsThinned depths limit bound) (value : Option Expr)
    (h : m.ThinnedIn depths limit kept gap names n) (hp : ∀ e ∈ value, e.Placed depths names) :
    Thins depths limit kept m n (Run.initialValue bound value) (Run.initialValue bound value)
      (Value.Thinned depths limit) := by
  cases value with
  | none => exact .pure h.toThinned .nil
  | some e => exact ih.evaluate e h (hp e rfl)

/-! ### Classes -/

theorem superclass? (superclass : Option Reference) (h : m.ThinnedIn depths limit kept gap names n)
    (hp : ∀ target ∈ superclass, depths target.id = names.depth? target.name.text) :
    Thins depths limit kept m n (Run.superclass? superclass) (Run.superclass? superclass)
      fun later c d =>
        Option.Rel (Class.Thinned depths limit later) c d ∧ c.isSome = superclass.isSome := by
  cases superclass with
  | none => exact .pure h.toThinned ⟨.none, rfl⟩
  | some target =>
    rw [Run.superclass?]
    refine Thins.bind h (.valueOf _ h (hp target rfl)) fun later a b after last hle h hab => ?_
    cases hab with
    | ofClass hcd => exact .pure h.toThinned ⟨.some hcd, rfl⟩
    | _ => exact .raise h.toThinned _ _

/-- The names around the methods of a class. -/
def outside (names : ScopeNames) (superclass : Option Reference) : ScopeNames :=
  if superclass.isSome then ["super"] :: names else names

/-- A scope for `super` is inside all gaps. -/
theorem methodClosure {c d : Option Class} (h : m.ThinnedIn depths limit kept gap names n)
    (hcd : Option.Rel (Class.Thinned depths limit kept) c d) {superclass : Option Reference}
    (hs : c.isSome = superclass.isSome) :
    Thins depths limit kept m n (Run.methodClosure c) (Run.methodClosure d)
      fun later e f => ∃ gap, e.Thinned later gap f ∧ (outside names superclass).Skips gap := by
  rw [Run.methodClosure, Run.methodClosure, outside, ← hs]
  refine Thins.read ?_
  cases hcd with
  | none => exact .pure h.toThinned ⟨gap, h.environment, h.skips⟩
  | some hcd =>
    have hbindings : Table.Alike .refl (Value.Thinned depths limit kept)
        (Table.ofList [("super", Value.ofClass _)]) (Table.ofList [("super", Value.ofClass _)]) :=
      .ofList (.cons ⟨rfl, .ofClass hcd⟩ .nil)
    exact (Thins.newScope h.toThinned h.environment hbindings).mono
      fun later e f henv => ⟨_, henv, h.skips.push _⟩

theorem methodTable (id : Nat) {closure other : Environment} (henv : closure.Thinned kept gap other)
    (hskips : names.Skips gap) {methods : List FunctionDef}
    (hp : ∀ declaration ∈ methods, declaration.PlacedBelow depths limit (["this"] :: names)) :
    (Machine.methodTable id closure methods).Alike .refl (Function.Thinned depths limit [["this"]] kept)
      (Machine.methodTable id other methods) := by
  refine .ofList (List.forall₂_iff_get.2 ⟨by simp, fun i hi hi' => ?_⟩)
  rw [List.length_mapIdx] at hi
  simp only [List.get_eq_getElem, List.getElem_mapIdx]
  exact ⟨rfl, ⟨rfl, rfl, rfl⟩, gap, names, henv, hskips, hp _ (List.getElem_mem hi),
    fun _ => ⟨names, rfl⟩⟩

theorem succ_execute_classDef (name : Identifier) (superclass : Option Reference)
    (methods : List FunctionDef) (h : m.ThinnedIn depths limit kept gap names n)
    (hs : (Stmt.classDef name superclass methods).PlacedBelow depths limit names)
    (hgap : gap ≠ some 0) :
    Thins depths limit kept m n ((Stmt.classDef name superclass methods).execute (bound + 1))
      ((Stmt.classDef name superclass methods).execute (bound + 1))
      (Completion.Thinned depths limit) := by
  have hplaced : (∀ target ∈ superclass, depths target.id = names.depth? target.name.text) ∧
      ∀ declaration ∈ methods, declaration.PlacedBelow depths limit
        (["this"] :: outside (names.declare name.text) superclass) := by
    obtain ⟨hplaced, hnodes⟩ := hs
    rw [Stmt.nodes, List.forall_mem_append] at hnodes
    cases superclass with
    | none => exact ⟨nofun, placedBelow_of_mem_methods hplaced.2.2 hnodes.2⟩
    | some target =>
      refine ⟨?_, placedBelow_of_mem_methods hplaced.2.2.2 hnodes.2⟩
      rintro _ ⟨⟩
      exact hplaced.2.2.1
  rw [Stmt.execute_classDef]
  refine Thins.bind h (superclass? superclass h hplaced.1) fun later c d after last hle h hcd => ?_
  obtain ⟨hcd, hsome⟩ := hcd
  refine Thins.bind h (.define h hgap _ .nil) fun later₁ _ _ after last hle₁ h _ => ?_
  have hcd₁ : Option.Rel (Class.Thinned depths limit later₁) c d := by
    cases hcd with
    | none => exact .none
    | some hclass => exact .some (Class.Thinned.mono hclass hle₁)
  have hinside : after.ThinnedIn depths limit later₁ gap (names.declare name.text) last :=
    ⟨h.toThinned, h.environment, h.skips.declare hgap _⟩
  refine Thins.bind h (methodClosure hinside hcd₁ hsome) fun later₂ e f after last hle₂ h henv => ?_
  obtain ⟨around, henv, hskips⟩ := henv
  refine Thins.freshIdentity h _ fun id after last h => ?_
  have htable := methodTable (id + 1) henv hskips hplaced.2
  refine Thins.bind h (.define h hgap _ ?_) fun later _ _ after last hle h _ => .pure h.toThinned .normal
  cases hcd₁ with
  | none => exact .ofClass (.base htable)
  | some hclass => exact .ofClass (.derived (Class.Thinned.mono hclass hle₂) htable)

/-! ### Statements -/

theorem succ_execute (ih : RunsThinned depths limit bound) (s : Stmt)
    (h : m.ThinnedIn depths limit kept gap names n) (hs : s.PlacedBelow depths limit names)
    (hgap : gap = some 0 → s.declared? = none) :
    Thins depths limit kept m n (s.execute (bound + 1)) (s.execute (bound + 1))
      (Completion.Thinned depths limit) := by
  cases s with
  | expression value =>
    rw [Stmt.execute]
    exact Thins.bind h (ih.evaluate value h hs.placed) fun _ _ _ _ _ _ h _ => .pure h.toThinned .normal
  | print value =>
    rw [Stmt.execute]
    refine Thins.bind h (ih.evaluate value h hs.placed) fun later a b after last hle h hab => ?_
    rw [Value.Thinned.display_eq hab]
    refine Thins.bind h (.write h.toThinned _ _) fun later _ _ after last hle h _ => ?_
    exact Thins.bind h (.write h.toThinned _ _) fun _ _ _ _ _ _ h _ => .pure h.toThinned .normal
  | var name initial =>
    have hgap : gap ≠ some 0 := fun hzero => Option.some_ne_none _ (hgap hzero)
    -- The initial value was placed with the variable declared already.
    have hinside : m.ThinnedIn depths limit kept gap (names.declare name.text) n :=
      ⟨h.toThinned, h.environment, h.skips.declare hgap _⟩
    rw [Stmt.execute_var]
    refine Thins.bind h (ih.initialValue initial hinside fun e he => (hs.placed.2.2 e he).1)
      fun later a b after last hle h hab => ?_
    exact Thins.bind h (.define h hgap _ hab) fun _ _ _ _ _ _ h _ => .pure h.toThinned .normal
  | block body =>
    rw [Stmt.execute]
    refine Thins.read ?_
    refine Thins.bind h (.newScope h.toThinned h.environment .empty)
      fun later e f after last hle h henv => ?_
    refine .inEnvironment h.toThinned henv (h.skips.push []) fun after last h => ?_
    exact ih.executeAll body h hs.block (by cases gap <;> simp)
  | conditional condition thenBranch elseBranch =>
    obtain ⟨hcondition, hthen, hdeclared⟩ := hs.thenBranch
    rw [Stmt.execute_conditional]
    refine Thins.bind h (ih.evaluate condition h hcondition) fun later a b after last hle h hab => ?_
    rw [Value.Thinned.isTruthy_eq hab]
    split
    · exact ih.execute thenBranch h hthen fun _ => hdeclared
    · cases elseBranch with
      | none => exact .pure h.toThinned .normal
      | some elseBranch => exact ih.execute elseBranch h hs.elseBranch.1 fun _ => hs.elseBranch.2
  | whileLoop condition body =>
    obtain ⟨hcondition, hbody, hdeclared⟩ := hs.loop
    rw [Stmt.execute]
    exact ih.repeatWhile condition body h hcondition hbody hdeclared
  | function declaration =>
    have hgap : gap ≠ some 0 := fun hzero => Option.some_ne_none _ (hgap hzero)
    rw [Stmt.execute]
    refine Thins.read (Thins.freshIdentity h 1 fun id after last hafter => ?_)
    refine Thins.bind hafter (.define hafter hgap _ (.function ⟨⟨rfl, rfl, rfl⟩, gap,
      names.declare declaration.name.text, h.environment, h.skips.declare hgap _, hs.function,
      fun hinit => absurd hinit Bool.false_ne_true⟩))
      fun _ _ _ _ _ _ h _ => .pure h.toThinned .normal
  | ret line value =>
    rw [Stmt.execute_ret]
    refine Thins.bind h (ih.initialValue value h hs.placed) fun later a b after last hle h hab => ?_
    exact .pure h.toThinned (.returned hab)
  | classDef name superclass methods =>
    exact succ_execute_classDef name superclass methods h hs fun hzero => Option.some_ne_none _ (hgap hzero)

theorem succ_executeAll (ih : RunsThinned depths limit bound) (body : List Stmt)
    (h : m.ThinnedIn depths limit kept gap names n)
    (hb : Stmt.PlacedAllBelow depths limit names body) (hgap : gap ≠ some 0) :
    Thins depths limit kept m n (Lox.executeAll (bound + 1) body) (Lox.executeAll (bound + 1) body)
      (Completion.Thinned depths limit) := by
  cases body with
  | nil => exact .pure h.toThinned .normal
  | cons s rest =>
    obtain ⟨hs, hrest⟩ := hb.cons
    rw [Lox.executeAll]
    refine Thins.bind h (ih.execute s h hs fun hzero => absurd hzero hgap)
      fun later c d after last hle h hcd => ?_
    cases hcd with
    | returned hab => exact .pure h.toThinned (.returned hab)
    | normal =>
      have hnext : after.ThinnedIn depths limit later gap (names.after s) last :=
        ⟨h.toThinned, h.environment, h.skips.after fun hzero => absurd hzero hgap⟩
      exact ih.executeAll rest hnext hrest hgap

theorem succ_repeatWhile (ih : RunsThinned depths limit bound) (condition : Expr) (body : Stmt)
    (h : m.ThinnedIn depths limit kept gap names n) (hc : condition.Placed depths names)
    (hb : body.PlacedBelow depths limit names) (hd : body.declared? = none) :
    Thins depths limit kept m n (Lox.repeatWhile (bound + 1) condition body)
      (Lox.repeatWhile (bound + 1) condition body) (Completion.Thinned depths limit) := by
  rw [Lox.repeatWhile]
  refine Thins.bind h (ih.evaluate condition h hc) fun later a b after last hle h hab => ?_
  rw [Value.Thinned.isTruthy_eq hab]
  split
  · refine Thins.bind h (ih.execute body h hb fun _ => hd) fun later c d after last hle h hcd => ?_
    cases hcd with
    | returned hab => exact .pure h.toThinned (.returned hab)
    | normal => exact ih.repeatWhile condition body h hc hb hd
  · exact .pure h.toThinned .normal

theorem succ (ih : RunsThinned depths limit bound) : RunsThinned depths limit (bound + 1) where
  evaluate := ih.succ_evaluate
  evaluateAll := ih.succ_evaluateAll
  apply := ih.succ_apply
  enter := ih.succ_enter
  execute := ih.succ_execute
  executeAll := ih.succ_executeAll
  repeatWhile := ih.succ_repeatWhile

theorem zero : RunsThinned depths limit 0 where
  evaluate _ _ _ := .exhaust
  evaluateAll _ _ _ := .exhaust
  apply _ _ _ _ := .exhaust
  enter _ _ _ _ := .exhaust
  execute _ _ _ _ := .exhaust
  executeAll _ _ _ _ := .exhaust
  repeatWhile _ _ _ _ _ _ := .exhaust

end RunsThinned

/-- Code runs the same way on the thinned machine, whatever the bound. -/
theorem runsThinned (depths : Depths) (limit : NodeId) (bound : Nat) :
    RunsThinned depths limit bound := by
  induction bound with
  | zero => exact .zero
  | succ bound ih => exact ih.succ

theorem Machine.ThinnedIn.runProgram (bound : Nat) {statements : List Stmt}
    (h : m.ThinnedIn depths limit kept gap [] n)
    (hs : Stmt.PlacedAllBelow depths limit [] statements) (hgap : gap ≠ some 0) :
    Thins depths limit kept m n (Lox.runProgram bound statements) (Lox.runProgram bound statements)
      fun _ _ _ => True := by
  induction statements generalizing kept m n with
  | nil => exact .pure h.toThinned trivial
  | cons s rest ih =>
    obtain ⟨hfirst, hrest⟩ := hs.cons
    rw [ScopeNames.after_nil] at hrest
    rw [Lox.runProgram]
    have hruns := (runsThinned depths limit bound).execute s h hfirst fun hzero => absurd hzero hgap
    exact Thins.bind h hruns fun later _ _ after last hle h _ => ih h hrest

/-! ### Runs without a bound -/

namespace Run.Thins

variable {α β : Type} {x : Nat → Run α} {y : Nat → Run β} {P : List ScopeId → α → β → Prop}

/-- If two runs go the same way at every bound, they do so without a bound. -/
theorem unbounded (hx : Rising x) (hy : Rising y)
    (h : ∀ k, Thins depths limit kept m n (x k) (y k) P) :
    Thins depths limit kept m n (unbounded x) (unbounded y) P := by
  by_cases hends : ∃ k, x k m ≠ .exhausted
  · obtain ⟨k, hk⟩ := hends
    have hyk : y k n ≠ .exhausted := by
      rcases (h k).cases with ⟨a, b, s, t, -, hb, -⟩ | ⟨e, f, s, t, -, hf, -⟩ | ⟨he, -⟩
      · exact hb ▸ nofun
      · exact hf ▸ nofun
      · exact absurd he hk
    exact Agree.congr (hx.below_unbounded k m hk) (hy.below_unbounded k n hyk) (h k)
  · have hnever : ∀ k, x k m = .exhausted := fun k => Classical.byContradiction fun hk => hends ⟨k, hk⟩
    refine Agree.of_exhausted (dif_neg hends) (dif_neg fun hends' => ?_)
    obtain ⟨k, hk⟩ := hends'
    rcases (h k).cases with ⟨a, b, s, t, ha, -⟩ | ⟨e, f, s, t, he, -⟩ | ⟨-, he⟩
    · exact nomatch (hnever k).symm.trans ha
    · exact nomatch (hnever k).symm.trans he
    · exact hk he

theorem andThen {c d others next : Run Completion} (h : m.ThinnedIn depths limit kept gap names n)
    (hcd : Thins depths limit kept m n c d (Completion.Thinned depths limit))
    (hnext : ∀ later after last, after.ThinnedIn depths limit later gap names last →
      Thins depths limit later after last next others (Completion.Thinned depths limit)) :
    Thins depths limit kept m n (c.andThen next) (d.andThen others)
      (Completion.Thinned depths limit) := by
  refine Thins.bind h hcd fun later c d after last hle h hcd => ?_
  cases hcd with
  | returned hab => exact .pure h.toThinned (.returned hab)
  | normal => exact hnext later after last h

/-- Loops whose rounds go the same way go the same way. -/
theorem cycle {c d : Run Value} {body other : Run Completion}
    (h : m.ThinnedIn depths limit kept gap names n)
    (hcondition : ∀ kept m n, m.ThinnedIn depths limit kept gap names n →
      Thins depths limit kept m n c d (Value.Thinned depths limit))
    (hbody : ∀ kept m n, m.ThinnedIn depths limit kept gap names n →
      Thins depths limit kept m n body other (Completion.Thinned depths limit)) :
    Thins depths limit kept m n (cycle c body) (cycle d other) (Completion.Thinned depths limit) := by
  refine unbounded (rising_rounds c body) (rising_rounds d other) fun k => ?_
  induction k generalizing kept m n with
  | zero => exact .exhaust
  | succ k ih =>
    rw [rounds, rounds]
    refine Thins.bind h (hcondition _ _ _ h) fun later a b after last hle h hab => ?_
    rw [Value.Thinned.isTruthy_eq hab]
    split
    · exact .andThen h (hbody _ _ _ h) fun later after last h => ih h
    · exact .pure h.toThinned .normal

end Run.Thins

theorem Machine.ThinnedIn.evaluate {e : Expr} (h : m.ThinnedIn depths limit kept gap names n)
    (hp : e.Placed depths names) :
    Thins depths limit kept m n e.run e.run (Value.Thinned depths limit) :=
  .unbounded e.rising e.rising fun k => (runsThinned depths limit k).evaluate e h hp

theorem Machine.ThinnedIn.execute {s : Stmt} (h : m.ThinnedIn depths limit kept gap names n)
    (hs : s.PlacedBelow depths limit names) (hgap : gap = some 0 → s.declared? = none) :
    Thins depths limit kept m n s.run s.run (Completion.Thinned depths limit) :=
  .unbounded s.rising s.rising fun k => (runsThinned depths limit k).execute s h hs hgap

end

end Lox
