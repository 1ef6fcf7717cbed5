import Lox.Proofs.Lexical.Declaring

/-!
# Evaluation follows lexical scoping

Evaluation and the reference semantics go hand in hand: from states that match, and with references
that resolution has placed, every form of expression and statement ends in the same way on both sides.
-/

namespace Lox.Lexical

open Procedure

variable {depths : Depths} {limit : NodeId} {low : Nat} {slots later : Slots} {m after : Machine}
  {s t : State} {names : ScopeNames} {scope inner : Scope}

/-- Both end normally, or both return values that match. -/
inductive CompletionMatches (depths : Depths) (limit : NodeId) (slots : Slots) :
    Lox.Completion → Completion → Prop where
  | normal : CompletionMatches depths limit slots .normal .normal
  | returned {a b} (h : ValueMatches depths limit slots a b) :
      CompletionMatches depths limit slots (.returned a) (.returned b)

abbrev ValuesMatch (depths : Depths) (limit : NodeId) (slots : Slots) :
    List Lox.Value → List Value → Prop := List.Forall₂ (ValueMatches depths limit slots)

theorem ValuesMatch.grow {as : List Lox.Value} {bs : List Value}
    (h : ValuesMatch depths limit slots as bs) (hle : slots <+: later) :
    ValuesMatch depths limit later as bs := List.Forall₂.imp (fun _ _ h => h.grow hle) h

/-- The statement ends in the same way on both sides, and leaves an environment and a map that match
again. -/
abbrev StepMatches (depths : Depths) (limit : NodeId) (env : Environment) (names : ScopeNames)
    (later : Slots) (c : Lox.Completion) (p : Completion × Scope) : Prop :=
  CompletionMatches depths limit later c p.1 ∧ Innermost later env names p.2

/-- Evaluation with the bound `n` is followed by the reference semantics with this bound. -/
structure Follows (depths : Depths) (limit : NodeId) (n : Nat) : Prop where
  evaluate : ∀ {low slots m s names scope} (e : Expr), Matches depths limit low slots m s →
    ScopeMatches slots m.environment names scope → e.Placed depths names →
    Simulates depths limit low slots m s (e.evaluate n) (evaluate n scope e)
      (ValueMatches depths limit)
  evaluateAll : ∀ {low slots m s names scope} (es : List Expr), Matches depths limit low slots m s →
    ScopeMatches slots m.environment names scope → Expr.PlacedAll depths names es →
    Simulates depths limit low slots m s (Lox.evaluateAll n es) (evaluateAll n scope es)
      (ValuesMatch depths limit)
  apply : ∀ {low slots m s a b as bs} (line : Nat), Matches depths limit low slots m s →
    ValueMatches depths limit slots a b → ValuesMatch depths limit slots as bs →
    a.arity? = some as.length →
    Simulates depths limit low slots m s (a.apply n as line) (apply n b bs line)
      (ValueMatches depths limit)
  enter : ∀ {low slots m s f g as bs} (line : Nat), Matches depths limit low slots m s →
    FunctionMatches depths limit slots f g → ValuesMatch depths limit slots as bs →
    as.length = f.arity →
    Simulates depths limit low slots m s (f.enter n as line) (enter n g bs line)
      (ValueMatches depths limit)
  execute : ∀ {low slots m s names scope} (statement : Stmt),
    Running depths limit low slots names m s scope → statement.Coded depths limit names →
    Simulates depths limit low slots m s (statement.execute n) (execute n scope statement)
      (StepMatches depths limit m.environment (names.after statement))
  executeAll : ∀ {low slots m s names scope} (body : List Stmt),
    Running depths limit low slots names m s scope → Stmt.CodedAll depths limit names body →
    Simulates depths limit low slots m s (Lox.executeAll n body) (executeAll n scope body)
      (CompletionMatches depths limit)
  repeatWhile : ∀ {low slots m s names scope} (condition : Expr) (body : Stmt),
    Running depths limit low slots names m s scope → condition.Placed depths names →
    body.Coded depths limit names → body.declared? = none →
    Simulates depths limit low slots m s (Lox.repeatWhile n condition body)
      (repeatWhile n scope condition body)
      fun later c d => StepMatches depths limit m.environment names later c (d, scope)

/-- Tables of related entries are related. -/
theorem rel_get?_ofList {α β : Type} {R : α → β → Prop} {as : List (String × α)}
    {bs : List (String × β)} (h : List.Forall₂ (fun a b => a.1 = b.1 ∧ R a.2 b.2) as bs) (key : String) :
    Option.Rel R ((Table.ofList as).get? key) ((Table.ofList bs).get? key) := by
  have general : ∀ (a : Table α) (b : Table β), Option.Rel R (a.get? key) (b.get? key) →
      Option.Rel R ((as.foldl (fun t entry => t.insert entry.1 entry.2) a).get? key)
        ((bs.foldl (fun t entry => t.insert entry.1 entry.2) b).get? key) := by
    induction h with
    | nil => exact fun _ _ h => h
    | cons hentry _ ih =>
      refine fun a b hab => ih _ _ ?_
      rw [Table.get?_insert, Table.get?_insert, hentry.1]
      split
      · exact .some hentry.2
      · exact hab
  exact general Table.empty Table.empty .none

namespace Follows

variable {n : Nat}

theorem succ_evaluate (ih : Follows depths limit n) (e : Expr) (h : Matches depths limit low slots m s)
    (hs : ScopeMatches slots m.environment names scope) (hp : e.Placed depths names) :
    Simulates depths limit low slots m s (e.evaluate (n + 1)) (Lexical.evaluate (n + 1) scope e)
      (ValueMatches depths limit) := by
  cases e with
  | literal value =>
    rw [Expr.evaluate, Lexical.evaluate]
    exact .pure h (.ofPlain (Lox.Value.isPlain_ofLiteral value))
  | grouping inner =>
    rw [Expr.evaluate, Lexical.evaluate]
    exact ih.evaluate inner h hs hp
  | unary operator operand line =>
    rw [Expr.evaluate, Lexical.evaluate]
    refine Simulates.bind (ih.evaluate operand h hs hp) fun a b later after t hg hm hab => ?_
    exact .unary hm operator line hab
  | binary left operator right line =>
    rw [Expr.evaluate, Lexical.evaluate]
    refine Simulates.bind (ih.evaluate left h hs hp.1) fun a b later after t hg hm hab => ?_
    refine Simulates.bind (ih.evaluate right hm (hg.scopes hs) hp.2)
      fun c d last final u hg' hm' hcd => ?_
    exact .binary hm' operator line (hab.grow hg'.le) hcd
  | logical left operator right =>
    rw [Expr.evaluate, Lexical.evaluate]
    refine Simulates.bind (ih.evaluate left h hs hp.1) fun a b later after t hg hm hab => ?_
    rw [hab.content_eq, LogicalOperator.decides_content]
    split
    · exact .pure hm hab
    · exact ih.evaluate right hm (hg.scopes hs) hp.2
  | reference target =>
    rw [Expr.evaluate, Lexical.evaluate]
    exact .valueOf h hs hp _
  | assign target value =>
    rw [Expr.evaluate, Lexical.evaluate]
    refine Simulates.bind (ih.evaluate value h hs hp.2.2) fun a b later after t hg hm hab => ?_
    refine Simulates.bind (.assign hm (hg.scopes hs) hp.2.1 hab) fun _ _ last final u hg' hm' _ => ?_
    exact .pure hm' (hab.grow hg'.le)
  | call callee arguments line =>
    rw [Expr.evaluate, Lexical.evaluate]
    refine Simulates.bind (ih.evaluate callee h hs hp.1) fun a b later after t hg hm hab => ?_
    refine Simulates.bind (ih.evaluateAll arguments hm (hg.scopes hs) hp.2)
      fun as bs last final u hg' hm' habs => ?_
    have hab := hab.grow hg'.le
    rw [← hab.arity?_eq, ← habs.length_eq]
    cases harity : a.arity? with
    | none => exact .raise hm' _ _
    | some arity =>
      simp only
      split
      · next hlen =>
        refine .asCall hm' (ih.apply line ?_ hab habs (hlen ▸ harity))
        exact { hm' with callDepth := congrArg (· + 1) hm'.callDepth }
      · exact .raise hm' _ _
  | get object name =>
    rw [Expr.evaluate, Lexical.evaluate]
    refine Simulates.bind (ih.evaluate object h hs hp) fun a b later after t hg hm hab => ?_
    cases hab with
    | ofInstance hobject => exact .property hm hobject name
    | _ => exact .raise hm _ _
  | set object name value =>
    rw [Expr.evaluate, Lexical.evaluate]
    refine Simulates.bind (ih.evaluate object h hs hp.1) fun a b later after t hg hm hab => ?_
    cases hab with
    | ofInstance hobject =>
      refine Simulates.bind (ih.evaluate value hm (hg.scopes hs) hp.2)
        fun c d last final u hg' hm' hcd => ?_
      refine Simulates.bind (.setField hm' hobject.id name.text hcd)
        fun _ _ slots' m' s' hg'' hm'' _ => ?_
      exact .pure hm'' (hcd.grow hg''.le)
    | _ => exact .raise hm _ _
  | this id line =>
    rw [Expr.evaluate, Lexical.evaluate]
    obtain ⟨depth, hthis, hid⟩ := hp
    exact .valueOf h hs (hid.trans hthis.symm) _
  | super id line method =>
    rw [Expr.evaluate, Lexical.evaluate]
    obtain ⟨depth, hthis, hsuper, hid⟩ := hp
    exact .superMethod h hs hthis hsuper hid line method

theorem succ_evaluateAll (ih : Follows depths limit n) (es : List Expr)
    (h : Matches depths limit low slots m s) (hs : ScopeMatches slots m.environment names scope)
    (hp : Expr.PlacedAll depths names es) :
    Simulates depths limit low slots m s (Lox.evaluateAll (n + 1) es)
      (Lexical.evaluateAll (n + 1) scope es) (ValuesMatch depths limit) := by
  cases es with
  | nil => exact .pure h .nil
  | cons e rest =>
    rw [Lox.evaluateAll, Lexical.evaluateAll]
    refine Simulates.bind (ih.evaluate e h hs hp.1) fun a b later after t hg hm hab => ?_
    refine Simulates.bind (ih.evaluateAll rest hm (hg.scopes hs) hp.2)
      fun as bs last final u hg' hm' habs => ?_
    exact .pure hm' (.cons (hab.grow hg'.le) habs)

theorem succ_apply (ih : Follows depths limit n) {a : Lox.Value} {b : Value}
    {as : List Lox.Value} {bs : List Value} (line : Nat) (h : Matches depths limit low slots m s)
    (hab : ValueMatches depths limit slots a b) (habs : ValuesMatch depths limit slots as bs)
    (harity : a.arity? = some as.length) :
    Simulates depths limit low slots m s (a.apply (n + 1) as line) (Lexical.apply (n + 1) b bs line)
      (ValueMatches depths limit) := by
  cases hab with
  | native clock =>
    rw [Lox.Value.apply, Lexical.apply]
    exact .callHost h clock as line
  | function hfg =>
    rw [Lox.Value.apply, Lexical.apply]
    exact ih.enter line h hfg habs (Option.some.inj harity).symm
  | @ofClass c d hcd =>
    rw [Lox.Value.apply, Lexical.apply]
    refine Simulates.bind (.instantiate h hcd) fun object object' later after t hg hm hobject => ?_
    have hinit := (hcd.grow hg.le).findMethod? initializerName
    have hclass : c.arity = as.length := Option.some.inj harity
    rw [Lox.Class.arity] at hclass
    unfold Lox.Class.initializer? Lexical.Class.initializer? at *
    revert hinit hclass
    generalize c.findMethod? initializerName = f
    generalize d.findMethod? initializerName = g
    intro hinit hclass
    cases hinit with
    | none => exact .pure hm (.ofInstance hobject)
    | @some f g hfg =>
      refine Simulates.bind (.bindMethod hm hfg hobject)
        fun f' g' last final u hg' hm' hbound => ?_
      have hbody := ih.enter line hm' hbound.1 ((habs.grow hg.le).grow hg'.le) ?_
      · refine Simulates.bind hbody fun _ _ slots' m' s' hg'' hm'' _ => ?_
        exact .pure hm'' (.ofInstance ⟨hobject.id, (hobject.ofClass.grow hg'.le).grow hg''.le⟩)
      · rw [← hclass, Lox.Function.arity, hbound.2]
        rfl
  | _ => cases harity

theorem callResult (h : Matches depths limit low slots m s) {f : Lox.Function} {g : Function}
    (hfg : FunctionMatches depths limit slots f g) (line : Nat) {c : Lox.Completion}
    {d : Completion} (hcd : CompletionMatches depths limit slots c d) :
    Simulates depths limit low slots m s (Run.callResult f line c) (Lexical.callResult g line d)
      (ValueMatches depths limit) := by
  unfold Run.callResult Lexical.callResult
  rw [← hfg.isInitializer]
  split
  · next hinit =>
    obtain ⟨names, hs, -, hthis⟩ := hfg.closure
    obtain ⟨outer, rfl⟩ := hthis hinit
    have hd : ScopeNames.depth? (["this"] :: outer) "this" = some 0 :=
      ScopeNames.depth?_cons_of_mem (List.mem_singleton_self _)
    obtain ⟨env, location, henv, hl, hslot⟩ := hs.hit "this" 0 hd
    obtain ⟨value, cell, hvalue, hcell, hmatch⟩ := h.cells location env.scope "this" hslot
    refine .of_ok (a := value) (b := cell) ?_ ?_ .refl h hmatch
    · simp [bind_apply, Procedure.read, Environment.getAt?, henv, hvalue]
    · simp only [valueOf_apply, State.get?, hl, hcell]
  · cases hcd with
    | normal => exact .pure h .nil
    | returned hab => exact .pure h hab

theorem succ_enter (ih : Follows depths limit n) {f : Lox.Function} {g : Function}
    {as : List Lox.Value} {bs : List Value} (line : Nat) (h : Matches depths limit low slots m s)
    (hfg : FunctionMatches depths limit slots f g) (habs : ValuesMatch depths limit slots as bs)
    (hlen : as.length = f.arity) :
    Simulates depths limit low slots m s (f.enter (n + 1) as line)
      (Lexical.enter (n + 1) g bs line) (ValueMatches depths limit) := by
  obtain ⟨names, hs, hcoded, -⟩ := hfg.closure
  rw [Function.enter_succ, Lexical.enter_succ]
  refine Simulates.bind (P := CompletionMatches depths limit) ?_
    fun c d later after t hg hm hcd => callResult hm (hfg.mono hg.le) line hcd
  unfold Run.callBody Lexical.callBody
  rw [← hfg.declaration]
  have hparams : as.length = (f.declaration.params.map Identifier.text).length := by
    rw [hlen, Lox.Function.arity, List.length_map]
  exact Simulates.call h hs hcoded.params.1 habs hparams fun later after t inner hr =>
    ih.executeAll f.declaration.body hr hcoded.body

theorem initialValue (ih : Follows depths limit n) (h : Matches depths limit low slots m s)
    (hs : ScopeMatches slots m.environment names scope) {value : Option Expr}
    (hp : ∀ e ∈ value, e.Placed depths names) :
    Simulates depths limit low slots m s (Run.initialValue n value)
      (Lexical.initialValue n scope value) (ValueMatches depths limit) := by
  cases value with
  | none => exact .pure h .nil
  | some e => exact ih.evaluate e h hs (hp e rfl)

theorem superclass? (h : Matches depths limit low slots m s)
    (hs : ScopeMatches slots m.environment names scope) {superclass : Option Reference}
    (hp : ∀ target ∈ superclass, depths target.id = names.depth? target.name.text) :
    Simulates depths limit low slots m s (Run.superclass? superclass)
      (Lexical.superclass? scope superclass) fun later c d =>
        (c.isSome = superclass.isSome) ∧
          Option.Rel (ClassMatches (MethodMatches depths limit later)) c d := by
  cases superclass with
  | none => exact .pure h ⟨rfl, .none⟩
  | some target =>
    refine Simulates.bind (.valueOf h hs (hp target rfl) _) fun a b later after t hg hm hab => ?_
    cases hab with
    | ofClass hcd => exact .pure hm ⟨rfl, .some hcd⟩
    | _ => exact .raise hm _ _

/-- The map that methods keep matches the scopes around them. -/
theorem captured (h : Matches depths limit low slots m s)
    (hs : ScopeMatches slots m.environment names inner) {superclass : Option Reference}
    {c : Option Lox.Class} {d : Option Class} (hsome : c.isSome = superclass.isSome)
    (hcd : Option.Rel (ClassMatches (MethodMatches depths limit slots)) c d) :
    Simulates depths limit low slots m s (Run.methodClosure c) (Lexical.captured inner d)
      fun later closure captured =>
        ScopeMatches later closure (KeepsSound.methodNames superclass names) captured := by
  cases hcd with
  | none =>
    cases superclass with
    | none => exact .of_ok rfl rfl .refl h hs
    | some target => cases hsome
  | some hcd =>
    cases superclass with
    | none => cases hsome
    | some target => exact Simulates.extend h hs "super" (.ofClass hcd)

theorem methodTable {closure : Environment} {captured : Scope} (id : Nat)
    {methods : List FunctionDef} (hs : ScopeMatches slots closure names captured)
    (hcoded : ∀ declaration ∈ methods, declaration.Coded depths limit (["this"] :: names)) :
    ∀ key, Option.Rel (MethodMatches depths limit slots)
      ((Machine.methodTable id closure methods).get? key)
      ((Lexical.methodTable id captured methods).get? key) := by
  refine rel_get?_ofList (List.forall₂_iff_get.2 ⟨by simp, fun i hi hi' => ?_⟩)
  simp only [List.get_eq_getElem, List.getElem_mapIdx]
  exact ⟨trivial, rfl, rfl, names, hs, hcoded _ (List.getElem_mem _)⟩

theorem succ_execute_classDef (name : Identifier) (superclass : Option Reference)
    (methods : List FunctionDef) (h : Running depths limit low slots names m s scope)
    (hs : (Stmt.classDef name superclass methods).Coded depths limit names) :
    Simulates depths limit low slots m s
      ((Stmt.classDef name superclass methods).execute (n + 1))
      (Lexical.execute (n + 1) scope (.classDef name superclass methods))
      (StepMatches depths limit m.environment (names.declare name.text)) := by
  have hscopes := h.innermost.scopes
  have hstates := h.states.raise
  have hmethods := KeepsSound.coded_methods hs
  have hfresh : names.Fresh name.text := by
    cases superclass with
    | none => exact hs.placed.2.1
    | some target => exact hs.placed.2.1
  have hsuperclass : ∀ target ∈ superclass,
      depths target.id = names.depth? target.name.text := by
    rintro target ⟨⟩
    exact hs.placed.2.2.1
  rw [Stmt.execute_classDef, Lexical.execute_classDef]
  refine Simulates.bind (h.simulates (superclass? hstates hscopes hsuperclass))
    fun c d slots₁ m₁ s₁ hg₁ hm₁ hcd => ?_
  have h₁ := h.next hg₁ hm₁ hcd.2
  refine Simulates.bind (h₁.declare hfresh fun _ _ _ _ => .nil)
    fun _ inner slots₂ m₂ s₂ hg₂ hm₂ hi₂ => ?_
  have h₂ := h₁.next hg₂ hm₂ hi₂
  have hcd₂ := optionRel_mono (fun _ _ hcd => hcd.grow hg₂.le) hcd.1.2
  refine Simulates.bind (h₂.simulates (captured hm₂.raise h₂.innermost.scopes hcd.1.1 hcd₂))
    fun closure captured slots₃ m₃ s₃ hg₃ hm₃ hclosure => ?_
  have h₃ := h₂.next hg₃ hm₃ hclosure.2
  refine Simulates.bind (.freshIdentity hm₃ (methods.length + 1))
    fun id id' slots₄ m₄ s₄ hg₄ hm₄ hid => ?_
  obtain ⟨rfl, rfl⟩ := hid
  have h₄ := h₃.next hg₄ hm₄ (h₃.innermost)
  have htable := methodTable (id + 1) hclosure.1 hmethods
  have hclass : ClassMatches (MethodMatches depths limit slots₄)
      ⟨id, name.text, c, Machine.methodTable (id + 1) closure methods⟩
      ⟨id, name.text, d, Lexical.methodTable (id + 1) captured methods⟩ := by
    cases hcd₂ with
    | none => exact .base htable
    | some hcd₂ => exact .derived (hcd₂.grow hg₃.le) htable
  have hdeclared : names.declare name.text ≠ [] →
      (names.declare name.text).depth? name.text = some 0 := by
    intro hne
    refine ScopeNames.depth?_declare_self ?_
    rintro rfl
    exact hne rfl
  refine Simulates.bind (h₄.redefine hdeclared (.ofClass hclass))
    fun _ _ slots₅ m₅ s₅ hg₅ hm₅ hslots => ?_
  subst hslots
  refine .pure hm₅ ⟨.normal, ?_⟩
  have hlast := h₄.innermost
  rwa [hg₄.environment, hg₃.environment, hg₂.environment, hg₁.environment] at hlast

theorem succ_execute (ih : Follows depths limit n) (statement : Stmt)
    (h : Running depths limit low slots names m s scope)
    (hs : statement.Coded depths limit names) :
    Simulates depths limit low slots m s (statement.execute (n + 1))
      (Lexical.execute (n + 1) scope statement)
      (StepMatches depths limit m.environment (names.after statement)) := by
  have hscopes := h.innermost.scopes
  have hstates := h.states.raise
  cases statement with
  | expression value =>
    rw [Stmt.execute, Lexical.execute]
    refine Simulates.bind (h.simulates (ih.evaluate value hstates hscopes hs.placed))
      fun a b later after t hg hm hab => ?_
    exact .pure hm ⟨.normal, hab.2⟩
  | print value =>
    rw [Stmt.execute, Lexical.execute]
    refine Simulates.bind (h.simulates (ih.evaluate value hstates hscopes hs.placed))
      fun a b later after t hg hm hab => ?_
    rw [hab.1.content_eq, Lox.Value.display_content]
    refine Simulates.bind (.write hm _ _) fun _ _ last final u hg' hm' hlast => ?_
    refine Simulates.bind (.write hm' _ _) fun _ _ slots' m' s' hg'' hm'' hslots => ?_
    exact .pure hm'' ⟨.normal, hslots ▸ hlast ▸ hab.2⟩
  | var name initial =>
    rw [Stmt.execute_var, Lexical.execute_var]
    have hinitial : ∀ e ∈ initial, e.Placed depths names := by
      rintro e ⟨⟩
      exact hs.initial
    refine Simulates.bind (h.simulates (ih.initialValue hstates hscopes hinitial))
      fun a b later after t hg hm hab => ?_
    have hnext := h.next hg hm hab.2
    refine Simulates.bind (hnext.declare hs.placed.2.1 fun _ _ hle _ => hab.1.grow hle)
      fun _ inner last final u hg' hm' hi => ?_
    exact .pure hm' ⟨.normal, hg.environment ▸ hi⟩
  | block body =>
    rw [Stmt.execute, Lexical.execute]
    have hbody := Simulates.call hstates hscopes List.nodup_nil .nil rfl
      fun later after t inner hr => ih.executeAll body hr hs.block
    exact (h.simulates hbody).map fun later c d _ hcd => hcd
  | conditional condition thenBranch elseBranch =>
    obtain ⟨hcondition, hthen, hdthen⟩ := hs.thenBranch
    rw [Stmt.execute_conditional, Lexical.execute_conditional]
    refine Simulates.bind (h.simulates (ih.evaluate condition hstates hscopes hcondition))
      fun a b later after t hg hm hab => ?_
    have hnext := h.next hg hm hab.2
    rw [hab.1.content_eq, Lox.Value.isTruthy_content]
    split
    · refine (ih.execute thenBranch hnext hthen).map fun last c p hle hcp => ?_
      rw [KeepsSound.after_of_declared hdthen] at hcp
      exact ⟨hcp.1, hg.environment ▸ hcp.2.restore hnext.innermost.scopes hle⟩
    · cases elseBranch with
      | none => exact .pure hm ⟨.normal, hab.2⟩
      | some elseBranch =>
        obtain ⟨helse, hdelse⟩ := hs.elseBranch
        refine (ih.execute elseBranch hnext helse).map fun last c p hle hcp => ?_
        rw [KeepsSound.after_of_declared hdelse] at hcp
        exact ⟨hcp.1, hg.environment ▸ hcp.2.restore hnext.innermost.scopes hle⟩
  | whileLoop condition body =>
    obtain ⟨hcondition, hbody, hdbody⟩ := hs.loop
    rw [Stmt.execute, Lexical.execute]
    exact (ih.repeatWhile condition body h hcondition hbody hdbody).map fun later c d _ hcd => hcd
  | function declaration =>
    rw [Stmt.execute, Lexical.execute]
    refine .environment (.bind (.freshIdentity h.states 1)
      fun id id' later after t hg hm hid => ?_)
    obtain ⟨rfl, rfl⟩ := hid
    have hnext := h.next hg hm h.innermost
    have hdeclare := hnext.declare (v := .function ⟨id, declaration, m.environment, false⟩)
      (f := fun inner => .function ⟨id, declaration, inner, false⟩) hs.placed.2.1
      fun last inner _ hinner =>
        .function ⟨rfl, rfl, rfl, _, hg.environment ▸ hinner, hs.function,
          fun hinit => absurd hinit Bool.false_ne_true⟩
    refine Simulates.bind hdeclare fun _ inner last final u hg' hm' hi => ?_
    exact .pure hm' ⟨.normal, hg.environment ▸ hi⟩
  | ret line value =>
    rw [Stmt.execute_ret, Lexical.execute_ret]
    refine Simulates.bind (h.simulates (ih.initialValue hstates hscopes hs.placed))
      fun a b later after t hg hm hab => ?_
    exact .pure hm ⟨.returned hab.1, hab.2⟩
  | classDef name superclass methods => exact succ_execute_classDef name superclass methods h hs

theorem succ_executeAll (ih : Follows depths limit n) (body : List Stmt)
    (h : Running depths limit low slots names m s scope)
    (hb : Stmt.CodedAll depths limit names body) :
    Simulates depths limit low slots m s (Lox.executeAll (n + 1) body)
      (Lexical.executeAll (n + 1) scope body) (CompletionMatches depths limit) := by
  cases body with
  | nil => exact .pure h.states .normal
  | cons statement rest =>
    obtain ⟨hs, hrest⟩ := hb.cons
    rw [Lox.executeAll, Lexical.executeAll]
    refine Simulates.bind (ih.execute statement h hs) fun c p later after t hg hm hcp => ?_
    obtain ⟨d, inner⟩ := p
    obtain ⟨hcd, hi⟩ := hcp
    cases hcd with
    | returned hab => exact .pure hm (.returned hab)
    | normal => exact ih.executeAll rest (h.next hg hm hi) hrest

theorem succ_repeatWhile (ih : Follows depths limit n) (condition : Expr) (body : Stmt)
    (h : Running depths limit low slots names m s scope) (hc : condition.Placed depths names)
    (hb : body.Coded depths limit names) (hd : body.declared? = none) :
    Simulates depths limit low slots m s (Lox.repeatWhile (n + 1) condition body)
      (Lexical.repeatWhile (n + 1) scope condition body)
      fun later c d => StepMatches depths limit m.environment names later c (d, scope) := by
  rw [Lox.repeatWhile, Lexical.repeatWhile]
  refine Simulates.bind (h.simulates (ih.evaluate condition h.states.raise h.innermost.scopes hc))
    fun a b later after t hg hm hab => ?_
  have hnext := h.next hg hm hab.2
  rw [hab.1.content_eq, Lox.Value.isTruthy_content]
  split
  · refine Simulates.bind (ih.execute body hnext hb) fun c p last final u hg' hm' hcp => ?_
    obtain ⟨d, inner⟩ := p
    obtain ⟨hcd, hi⟩ := hcp
    rw [KeepsSound.after_of_declared hd] at hi
    have hrestore := hi.restore hnext.innermost.scopes hg'.le
    cases hcd with
    | returned hab => exact .pure hm' ⟨.returned hab, hg.environment ▸ hrestore⟩
    | normal =>
      refine (ih.repeatWhile condition body (hnext.next hg' hm' hrestore) hc hb hd).mono ?_
      intro slots' c d _ hcd
      exact ⟨hcd.1, hg.environment ▸ hg'.environment ▸ hcd.2⟩
  · exact .pure hm ⟨.normal, hab.2⟩

theorem succ (ih : Follows depths limit n) : Follows depths limit (n + 1) where
  evaluate := ih.succ_evaluate
  evaluateAll := ih.succ_evaluateAll
  apply := ih.succ_apply
  enter := ih.succ_enter
  execute := ih.succ_execute
  executeAll := ih.succ_executeAll
  repeatWhile := ih.succ_repeatWhile

theorem zero : Follows depths limit 0 where
  evaluate _ _ _ _ := .exhaust
  evaluateAll _ _ _ _ := .exhaust
  apply _ _ _ _ _ := .exhaust
  enter _ _ _ _ _ := .exhaust
  execute _ _ _ := .exhaust
  executeAll _ _ _ := .exhaust
  repeatWhile _ _ _ _ _ _ := .exhaust

end Follows

/-- Evaluation is followed by the reference semantics, whatever its bound. -/
theorem follows (depths : Depths) (limit : NodeId) (n : Nat) : Follows depths limit n := by
  induction n with
  | zero => exact .zero
  | succ n ih => exact ih.succ

end Lox.Lexical
