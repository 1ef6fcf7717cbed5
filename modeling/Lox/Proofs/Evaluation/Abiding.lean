import Lox.Proofs.Evaluation.Regime
import Lox.Proofs.Evaluation.Soundness

/-!
# Evaluation abides by a regime

Whatever is evaluated from a machine under a regime leaves a machine under it behind, and its value
is under the regime. So is every part of the run, `Configuration.Under.reaches`.
-/

namespace Lox

open Procedure

variable {r : Regime} {m after : Machine}

namespace Stmt

theorem UnderAll.cons {s : Stmt} {rest : List Stmt} (h : UnderAll r (s :: rest)) :
    s.Under r ∧ UnderAll r rest := by
  have hdeclaration := h.declaration
  rw [ownFunctionsAll, List.forall_mem_append] at hdeclaration
  exact ⟨⟨h.ordinary.1, hdeclaration.1⟩, h.ordinary.2, hdeclaration.2⟩

namespace Under

theorem block {body : List Stmt} (h : (Stmt.block body).Under r) : UnderAll r body :=
  ⟨h.ordinary, h.declaration⟩

theorem thenBranch {condition : Expr} {thenBranch : Stmt} {elseBranch : Option Stmt}
    (h : (conditional condition thenBranch elseBranch).Under r) :
    condition.Ordinary ∧ thenBranch.Under r := by
  obtain ⟨hordinary, hdeclaration⟩ := h
  cases elseBranch with
  | none => exact ⟨hordinary.1, hordinary.2.2, hdeclaration⟩
  | some elseBranch =>
    rw [ownFunctions, List.forall_mem_append] at hdeclaration
    exact ⟨hordinary.1, hordinary.2.1.2, hdeclaration.1⟩

theorem elseBranch {condition : Expr} {thenBranch elseBranch : Stmt}
    (h : (conditional condition thenBranch (some elseBranch)).Under r) : elseBranch.Under r := by
  obtain ⟨hordinary, hdeclaration⟩ := h
  rw [ownFunctions, List.forall_mem_append] at hdeclaration
  exact ⟨hordinary.2.2.2, hdeclaration.2⟩

theorem loop {condition : Expr} {body : Stmt} (h : (whileLoop condition body).Under r) :
    condition.Ordinary ∧ body.Under r := ⟨h.ordinary.1, h.ordinary.2.2, h.declaration⟩

end Under

end Stmt

/-- The body of a function that may be called is under the regime. -/
theorem Regime.underAll_body {f : FunctionDef} (h : r.declaration f) : Stmt.UnderAll r f.body :=
  ⟨(r.ordinary h).body, r.inside h⟩

/-- What evaluation with the bound `n` keeps. -/
structure AbidesAt (r : Regime) (n : Nat) : Prop where
  evaluate : ∀ {m} (e : Expr), m.Under r → e.Ordinary →
    Run.Abides r m (e.evaluate n) fun value store => value.Under r store
  evaluateAll : ∀ {m} (es : List Expr), m.Under r → Expr.OrdinaryAll es →
    Run.Abides r m (evaluateAll n es) fun values store => ∀ value ∈ values, value.Under r store
  apply : ∀ {m} (callee : Value) (arguments : List Value) (line : Nat), m.Under r →
    callee.Under r m.store → (∀ argument ∈ arguments, argument.Under r m.store) →
    Run.Abides r m (callee.apply n arguments line) fun value store => value.Under r store
  enter : ∀ {m} (f : Function) (arguments : List Value) (line : Nat), m.Under r →
    r.callable f m.store → (∀ argument ∈ arguments, argument.Under r m.store) →
    Run.Abides r m (f.enter n arguments line) fun value store => value.Under r store
  execute : ∀ {m} (s : Stmt), m.Under r → s.Under r →
    Run.Abides r m (s.execute n) fun completion store => completion.Under r store
  executeAll : ∀ {m} (body : List Stmt), m.Under r → Stmt.UnderAll r body →
    Run.Abides r m (executeAll n body) fun completion store => completion.Under r store
  repeatWhile : ∀ {m} (condition : Expr) (body : Stmt), m.Under r → condition.Ordinary →
    body.Under r →
    Run.Abides r m (repeatWhile n condition body) fun completion store => completion.Under r store

namespace AbidesAt

open Run

variable {n : Nat}

theorem under_of_apply {operator : UnaryOperator} {a value : Value} {s : Store Value}
    (h : operator.apply a = .ok value) : value.Under r s := by
  unfold UnaryOperator.apply at h
  split at h <;> cases h <;> trivial

theorem under_of_applyTwo {operator : BinaryOperator} {a b value : Value} {s : Store Value}
    (h : operator.apply a b = .ok value) : value.Under r s := by
  unfold BinaryOperator.apply at h
  split at h <;> cases h <;> trivial

theorem succ_evaluate (ih : AbidesAt r n) (e : Expr) (h : m.Under r) (he : e.Ordinary) :
    Abides r m (e.evaluate (n + 1)) fun value store => value.Under r store := by
  cases e with
  | literal value =>
    rw [Expr.evaluate]
    exact Abides.pure h (by cases value <;> trivial)
  | grouping inner =>
    rw [Expr.evaluate]
    exact ih.evaluate inner h he
  | unary operator operand line =>
    rw [Expr.evaluate]
    refine Abides.bind (ih.evaluate operand h he) fun a after hm _ ha => ?_
    exact Abides.located hm fun value hv => under_of_apply hv
  | binary left operator right line =>
    rw [Expr.evaluate]
    refine Abides.bind (ih.evaluate left h he.1) fun a after hm _ ha => ?_
    refine Abides.bind (ih.evaluate right hm he.2) fun b later hl _ hb => ?_
    exact Abides.located hl fun value hv => under_of_applyTwo hv
  | logical left operator right =>
    rw [Expr.evaluate]
    refine Abides.bind (ih.evaluate left h he.1) fun a after hm _ ha => ?_
    split
    · exact Abides.pure hm ha
    · exact ih.evaluate right hm he.2
  | reference target =>
    rw [Expr.evaluate]
    exact Abides.valueOf h _ _ _
  | assign target value =>
    rw [Expr.evaluate]
    refine Abides.bind (ih.evaluate value h he.2) fun a after hm _ ha => ?_
    exact Abides.bind (Abides.assign hm he.1 ha) fun _ later hl hst _ =>
      Abides.pure hl (ha.mono hst)
  | call callee arguments line =>
    rw [Expr.evaluate]
    refine Abides.bind (ih.evaluate callee h he.1) fun c after hm _ hc => ?_
    refine Abides.bind (ih.evaluateAll arguments hm he.2) fun values later hl hst hvalues => ?_
    have hc := hc.mono hst
    cases c.arity? with
    | none => exact Abides.raise hl _ _
    | some arity =>
      simp only
      split
      · exact Abides.asCall hl (ih.apply c values line (hl.of_eq rfl rfl rfl) hc hvalues)
      · exact Abides.raise hl _ _
  | get object name =>
    rw [Expr.evaluate]
    refine Abides.bind (ih.evaluate object h he) fun a after hm _ ha => ?_
    split
    · exact Abides.property hm name ha
    · exact Abides.raise hm _ _
  | set object name value =>
    rw [Expr.evaluate]
    refine Abides.bind (ih.evaluate object h he.1) fun a after hm _ ha => ?_
    split
    · refine Abides.bind (ih.evaluate value hm he.2) fun b later hl _ hb => ?_
      exact Abides.bind (Abides.setField hl _ _ hb) fun _ last hlast hst _ =>
        Abides.pure hlast (hb.mono hst)
    · exact Abides.raise hm _ _
  | this id line =>
    rw [Expr.evaluate]
    exact Abides.valueOf h _ _ _
  | super id line method =>
    rw [Expr.evaluate]
    exact Abides.superMethod h _ _ _

theorem succ_evaluateAll (ih : AbidesAt r n) (es : List Expr) (h : m.Under r)
    (he : Expr.OrdinaryAll es) :
    Abides r m (Lox.evaluateAll (n + 1) es) fun values store =>
      ∀ value ∈ values, value.Under r store := by
  cases es with
  | nil => exact Abides.pure h nofun
  | cons e rest =>
    rw [Lox.evaluateAll]
    refine Abides.bind (ih.evaluate e h he.1) fun a after hm _ ha => ?_
    refine Abides.bind (ih.evaluateAll rest hm he.2) fun values later hl hst hvalues => ?_
    refine Abides.pure hl ?_
    rw [List.forall_mem_cons]
    exact ⟨ha.mono hst, hvalues⟩

theorem succ_apply (ih : AbidesAt r n) (callee : Value) (arguments : List Value) (line : Nat)
    (h : m.Under r) (hc : callee.Under r m.store)
    (ha : ∀ argument ∈ arguments, argument.Under r m.store) :
    Abides r m (callee.apply (n + 1) arguments line) fun value store => value.Under r store := by
  cases callee with
  | native f =>
    rw [Value.apply]
    exact Abides.callHost h f line ha
  | function f =>
    rw [Value.apply]
    exact ih.enter f arguments line h hc ha
  | ofClass c =>
    rw [Value.apply]
    refine Abides.bind (Abides.instantiate h hc) fun object after hm hst hobject => ?_
    cases hinit : c.initializer? with
    | none => exact Abides.pure hm hobject
    | some initializer =>
      have hdeclaration := Class.Every.findMethod? c hc hinit
      refine Abides.bind (Abides.bindMethod hm hdeclaration hobject)
        fun bound later hl hst' hbound => ?_
      refine Abides.bind (ih.enter bound arguments line hl hbound.1 fun argument hmem =>
        (ha argument hmem).mono (hst.trans hst')) fun _ last hlast _ _ => ?_
      exact Abides.pure hlast hobject
  | _ => exact Abides.raise h _ _

theorem callResult (h : m.Under r) (f : Function) (line : Nat) {completion : Completion}
    (hc : completion.Under r m.store) :
    Abides r m (Run.callResult f line completion) fun value store => value.Under r store := by
  unfold Run.callResult
  split
  · refine Abides.bind (Abides.read (P := fun object? store => ∀ object, object? = some object →
      object.Under r store) h fun object hobject => Abides.under_of_getAt? h hobject)
        fun object? after hm _ hobject => ?_
    cases object? with
    | some object => exact Abides.pure hm (hobject object rfl)
    | none => exact Abides.raise hm _ _
  · cases completion with
    | returned value => exact Abides.pure h hc
    | normal => exact Abides.pure h trivial

/-- The scope of a block binds nothing yet. -/
theorem blockFrame (h : m.Under r) (env : Environment) :
    Abides r m (Run.newScope env ∅) fun _ _ => True := by
  have hnone : ∀ name value, (∅ : Table Value).get? name = some value →
      value.Under r m.store := nofun
  exact (Abides.newScope h env hnone).mono fun _ _ _ => trivial

/-- The scope of a call binds the arguments. -/
theorem frame (h : m.Under r) (f : Function) {arguments : List Value}
    (ha : ∀ argument ∈ arguments, argument.Under r m.store) :
    Abides r m (Run.newScope f.closure (.ofList (f.declaration.paramNames.zip arguments)))
      fun _ _ => True := by
  refine (Abides.newScope h f.closure fun name value hv => ?_).mono fun _ _ _ => trivial
  exact ha value (List.of_mem_zip (Table.mem_of_get?_ofList hv)).2

theorem callBody (ih : AbidesAt r n) (f : Function) {arguments : List Value} (h : m.Under r)
    (hf : r.callable f m.store) (ha : ∀ argument ∈ arguments, argument.Under r m.store) :
    Abides r m (Run.callBody n f arguments) fun completion store => completion.Under r store := by
  refine Abides.bind (frame h f ha) fun frame after hm _ _ => Abides.inEnvironment ?_
  exact ih.executeAll _ (hm.of_eq rfl rfl rfl) (Regime.underAll_body (r.code hf))

theorem succ_enter (ih : AbidesAt r n) (f : Function) (arguments : List Value) (line : Nat)
    (h : m.Under r) (hf : r.callable f m.store)
    (ha : ∀ argument ∈ arguments, argument.Under r m.store) :
    Abides r m (f.enter (n + 1) arguments line) fun value store => value.Under r store := by
  rw [Function.enter_succ]
  exact Abides.bind (ih.callBody f h hf ha) fun completion after hm _ hc => callResult hm f line hc

theorem initialValue (ih : AbidesAt r n) (h : m.Under r) {value : Option Expr}
    (he : ∀ e ∈ value, e.Ordinary) :
    Abides r m (Run.initialValue n value) fun value store => value.Under r store := by
  cases value with
  | none => exact Abides.pure h trivial
  | some e => exact ih.evaluate e h (he e rfl)

theorem superclass? (h : m.Under r) (superclass : Option Reference) :
    Abides r m (Run.superclass? superclass) fun c? _ => ∀ c, c? = some c → c.Under r := by
  cases superclass with
  | none => exact Abides.pure h nofun
  | some target =>
    refine Abides.bind (Abides.valueOf h _ _ _) fun value after hm _ hv => ?_
    cases value with
    | ofClass c =>
      refine Abides.pure hm ?_
      rintro _ ⟨⟩
      exact hv
    | _ => exact Abides.raise hm _ _

theorem methodClosure (h : m.Under r) {c? : Option Class} (hc : ∀ c, c? = some c → c.Under r) :
    Abides r m (Run.methodClosure c?) fun _ _ => True := by
  refine Abides.bind (Abides.read (P := fun _ _ => True) h trivial) fun outside after hm _ _ => ?_
  cases c? with
  | none => exact Abides.pure hm trivial
  | some c =>
    refine (Abides.newScope hm outside fun name value hv => ?_).mono fun _ _ _ => trivial
    rw [Table.get?_ofList_singleton] at hv
    split at hv
    · cases hv
      exact hc c rfl
    · cases hv

theorem every_methodTable {methods : List FunctionDef} (id : Nat) (closure : Environment)
    (hmethods : ∀ declaration ∈ methods, r.declaration declaration) :
    (Machine.methodTable id closure methods).Every fun f => r.declaration f.declaration := by
  intro name f hf
  obtain ⟨i, hi, he⟩ := List.mem_mapIdx.1 (Table.mem_of_get?_ofList hf)
  cases he
  exact hmethods _ (List.getElem_mem hi)

theorem succ_execute (ih : AbidesAt r n) (s : Stmt) (h : m.Under r) (hs : s.Under r) :
    Abides r m (s.execute (n + 1)) fun completion store => completion.Under r store := by
  cases s with
  | expression value =>
    rw [Stmt.execute]
    exact Abides.bind (ih.evaluate value h hs.ordinary) fun _ after hm _ _ => Abides.pure hm trivial
  | print value =>
    rw [Stmt.execute]
    refine Abides.bind (ih.evaluate value h hs.ordinary) fun a after hm _ _ => ?_
    refine Abides.bind (Abides.write hm _ _) fun _ later hl _ _ => ?_
    refine Abides.bind (Abides.write hl _ _) fun _ last hlast _ _ => ?_
    exact Abides.pure hlast trivial
  | var name initial =>
    rw [Stmt.execute_var]
    refine Abides.bind (ih.initialValue h hs.ordinary.2) fun value after hm _ hv => ?_
    exact Abides.bind (Abides.define hm hs.ordinary.1 hv) fun _ later hl _ _ =>
      Abides.pure hl trivial
  | block body =>
    rw [Stmt.execute]
    refine Abides.bind (Abides.read (P := fun _ _ => True) h trivial) fun env after hm _ _ => ?_
    refine Abides.bind (blockFrame hm env) fun frame later hl _ _ => ?_
    exact Abides.inEnvironment (ih.executeAll body (hl.of_eq rfl rfl rfl) hs.block)
  | conditional condition thenBranch elseBranch =>
    obtain ⟨hcondition, hthen⟩ := hs.thenBranch
    rw [Stmt.execute_conditional]
    refine Abides.bind (ih.evaluate condition h hcondition) fun a after hm _ _ => ?_
    split
    · exact ih.execute thenBranch hm hthen
    · cases elseBranch with
      | none => exact Abides.pure hm trivial
      | some elseBranch => exact ih.execute elseBranch hm hs.elseBranch
  | whileLoop condition body =>
    rw [Stmt.execute]
    exact ih.repeatWhile condition body h hs.loop.1 hs.loop.2
  | function declaration =>
    have hdeclaration : r.declaration declaration := hs.declaration _ (.head _)
    have hname : OrdinaryName declaration.name.text := by
      have hordinary := hs.ordinary
      obtain ⟨name, params, body⟩ := declaration
      exact hordinary.1
    rw [Stmt.execute]
    refine Abides.bind (Abides.read (P := fun _ _ => True) h trivial) fun closure after hm _ _ => ?_
    refine Abides.bind (Abides.freshIdentity hm 1) fun id later hl _ _ => ?_
    exact Abides.bind (Abides.define hl hname (r.declared hdeclaration)) fun _ last hlast _ _ =>
      Abides.pure hlast trivial
  | ret line value =>
    rw [Stmt.execute_ret]
    exact Abides.bind (ih.initialValue h hs.ordinary) fun a after hm _ ha => Abides.pure hm ha
  | classDef name superclass methods =>
    rw [Stmt.execute_classDef]
    refine Abides.bind (superclass? h superclass) fun c? m₁ h₁ _ hc => ?_
    refine Abides.bind (Abides.define (v := .nil) h₁ hs.ordinary.1 trivial) fun _ m₂ h₂ _ _ => ?_
    refine Abides.bind (methodClosure h₂ hc) fun closure m₃ h₃ _ _ => ?_
    refine Abides.bind (Abides.freshIdentity h₃ (methods.length + 1)) fun id m₄ h₄ _ _ => ?_
    have htable := every_methodTable (id + 1) closure hs.declaration
    have hclass : Value.Under r m₄.store (.ofClass ⟨id, name.text, c?,
        Machine.methodTable (id + 1) closure methods⟩) := by
      cases c? with
      | none => exact htable
      | some c => exact ⟨htable, hc c rfl⟩
    exact Abides.bind (Abides.define h₄ hs.ordinary.1 hclass) fun _ m₅ h₅ _ _ =>
      Abides.pure h₅ trivial

theorem succ_executeAll (ih : AbidesAt r n) (body : List Stmt) (h : m.Under r)
    (hb : Stmt.UnderAll r body) :
    Abides r m (Lox.executeAll (n + 1) body) fun completion store => completion.Under r store := by
  cases body with
  | nil => exact Abides.pure h trivial
  | cons s rest =>
    obtain ⟨hs, hrest⟩ := hb.cons
    rw [Lox.executeAll]
    refine Abides.bind (ih.execute s h hs) fun completion after hm _ hc => ?_
    cases completion with
    | returned value => exact Abides.pure hm hc
    | normal => exact ih.executeAll rest hm hrest

theorem succ_repeatWhile (ih : AbidesAt r n) (condition : Expr) (body : Stmt) (h : m.Under r)
    (hc : condition.Ordinary) (hb : body.Under r) :
    Abides r m (Lox.repeatWhile (n + 1) condition body) fun completion store =>
      completion.Under r store := by
  rw [Lox.repeatWhile]
  refine Abides.bind (ih.evaluate condition h hc) fun a after hm _ _ => ?_
  split
  · refine Abides.bind (ih.execute body hm hb) fun completion later hl _ hcompletion => ?_
    cases completion with
    | returned value => exact Abides.pure hl hcompletion
    | normal => exact ih.repeatWhile condition body hl hc hb
  · exact Abides.pure hm trivial

theorem succ (ih : AbidesAt r n) : AbidesAt r (n + 1) where
  evaluate := ih.succ_evaluate
  evaluateAll := ih.succ_evaluateAll
  apply := ih.succ_apply
  enter := ih.succ_enter
  execute := ih.succ_execute
  executeAll := ih.succ_executeAll
  repeatWhile := ih.succ_repeatWhile

theorem zero : AbidesAt r 0 where
  evaluate _ _ _ := trivial
  evaluateAll _ _ _ := trivial
  apply _ _ _ _ _ _ := trivial
  enter _ _ _ _ _ _ := trivial
  execute _ _ _ := trivial
  executeAll _ _ _ := trivial
  repeatWhile _ _ _ _ _ := trivial

end AbidesAt

/-- Evaluation abides by every regime, whatever its bound. -/
theorem abidesAt (r : Regime) (n : Nat) : AbidesAt r n := by
  induction n with
  | zero => exact .zero
  | succ n ih => exact ih.succ

theorem abides_runProgram (bound : Nat) {body : List Stmt} (h : m.Under r)
    (hb : Stmt.UnderAll r body) : Run.Abides r m (runProgram bound body) fun _ _ => True := by
  induction body generalizing m with
  | nil => exact .pure h trivial
  | cons s rest ih =>
    obtain ⟨hs, hrest⟩ := hb.cons
    exact .bind ((abidesAt r bound).execute s h hs) fun _ after hm _ _ => ih hm hrest

/-! ### Parts of a run -/

/-- The task and the machine that it finds are under the regime. -/
def Configuration.Under (r : Regime) : Configuration → Prop
  | ⟨_, m, .expression e⟩ => m.Under r ∧ e.Ordinary
  | ⟨_, m, .arguments es⟩ => m.Under r ∧ Expr.OrdinaryAll es
  | ⟨_, m, .application callee arguments _⟩ => m.Under r ∧ callee.Under r m.store ∧
      ∀ argument ∈ arguments, argument.Under r m.store
  | ⟨_, m, .entry f arguments _⟩ => m.Under r ∧ r.callable f m.store ∧
      ∀ argument ∈ arguments, argument.Under r m.store
  | ⟨_, m, .statement s⟩ => m.Under r ∧ s.Under r
  | ⟨_, m, .statements body⟩ => m.Under r ∧ Stmt.UnderAll r body
  | ⟨_, m, .loop condition body⟩ => m.Under r ∧ condition.Ordinary ∧ body.Under r
  | ⟨_, m, .program statements⟩ => m.Under r ∧ Stmt.UnderAll r statements

namespace Configuration.Under

open Run

variable {c d : Configuration} {n : Nat}

theorem machine (h : c.Under r) : c.machine.Under r := by
  obtain ⟨n, m, task⟩ := c
  cases task <;> exact h.1

theorem after_evaluate {e : Expr} {value : Value} (h : m.Under r) (he : e.Ordinary)
    (ho : e.evaluate n m = .ok value after) : after.Under r :=
  (((abidesAt r n).evaluate e h he).of_ok ho).1

theorem after_execute {s : Stmt} {completion : Completion} (h : m.Under r) (hs : s.Under r)
    (ho : s.execute n m = .ok completion after) : after.Under r :=
  (((abidesAt r n).execute s h hs).of_ok ho).1

/-- Every task that one under the regime starts is under the regime. -/
theorem starts (h : c.Under r) (hcd : c.Starts d) : d.Under r := by
  cases hcd with
  | inner | operand | getObject => exact h
  | left | decider | callee | firstArgument | setObject => exact ⟨h.1, h.2.1⟩
  | assigned => exact ⟨h.1, h.2.2⟩
  | right ho | arguments ho | otherArguments ho | setValue ho | undecided ho _ =>
    exact ⟨after_evaluate h.1 h.2.1 ho, h.2.2⟩
  | call hcallee harguments _ _ =>
    obtain ⟨hm, -, hc⟩ := ((abidesAt r _).evaluate _ h.1 h.2.1).of_ok hcallee
    obtain ⟨hl, hst, hvalues⟩ := ((abidesAt r _).evaluateAll _ hm h.2.2).of_ok harguments
    exact ⟨hl.of_eq rfl rfl rfl, hc.mono hst, hvalues⟩
  | function => exact h
  | initializer hobject hinit hbound =>
    obtain ⟨hm, hc, harguments⟩ := h
    obtain ⟨h₁, hst, hinstance⟩ := (Abides.instantiate hm hc).of_ok hobject
    obtain ⟨h₂, hst', hcallable, -⟩ :=
      (Abides.bindMethod h₁ (Class.Every.findMethod? _ hc hinit) hinstance).of_ok hbound
    exact ⟨h₂, hcallable, fun argument hmem => (harguments argument hmem).mono (hst.trans hst')⟩
  | functionBody hframe =>
    obtain ⟨hm, hf, harguments⟩ := h
    have hframe := ((AbidesAt.frame hm _ harguments).of_ok hframe).1
    exact ⟨hframe.of_eq rfl rfl rfl, Regime.underAll_body (r.code hf)⟩
  | expression | printed => exact ⟨h.1, h.2.ordinary⟩
  | initial => exact ⟨h.1, h.2.ordinary.2 _ rfl⟩
  | result => exact ⟨h.1, h.2.ordinary _ rfl⟩
  | block hframe =>
    have hframe := ((AbidesAt.blockFrame h.1 _).of_ok hframe).1
    exact ⟨hframe.of_eq rfl rfl rfl, h.2.block⟩
  | condition => exact ⟨h.1, h.2.thenBranch.1⟩
  | thenBranch ho _ => exact ⟨after_evaluate h.1 h.2.thenBranch.1 ho, h.2.thenBranch.2⟩
  | elseBranch ho _ => exact ⟨after_evaluate h.1 h.2.thenBranch.1 ho, h.2.elseBranch⟩
  | whileLoop => exact ⟨h.1, h.2.loop⟩
  | superclass => exact ⟨h.1, trivial⟩
  | firstStatement | firstOfProgram => exact ⟨h.1, h.2.cons.1⟩
  | otherStatements ho | restOfProgram ho => exact ⟨after_execute h.1 h.2.cons.1 ho, h.2.cons.2⟩
  | loopCondition => exact ⟨h.1, h.2.1⟩
  | loopBody ho _ => exact ⟨after_evaluate h.1 h.2.1 ho, h.2.2⟩
  | nextRound ho _ hbody =>
    exact ⟨after_execute (after_evaluate h.1 h.2.1 ho) h.2.2 hbody, h.2⟩

/-- So is every part of the run. -/
theorem reaches (h : c.Under r) (hcd : c.Reaches d) : d.Under r := by
  induction hcd with
  | refl => exact h
  | tail _ hstep ih => exact ih.starts hstep

end Configuration.Under

end Lox
