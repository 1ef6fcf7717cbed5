import Lox.Proofs.Evaluation.Rooting

/-!
# Runs among values with roots

A task that finds only values with roots starts only tasks of this kind and leaves a machine of this
kind behind. The code of a task is that of the task that has started it, in the same environment, but
for blocks and calls, which open a scope.
-/

namespace Lox

open Procedure Run

/-! ### The code of a task -/

namespace Task

/-- The `super` expressions in the code of a task. A call has its code in its function. -/
def supers : Task → List (SuperUse × Nat)
  | expression e => e.supers.map (·, 0)
  | arguments es => (Expr.supersAll es).map (·, 0)
  | application _ _ _ | entry _ _ _ => []
  | statement s => s.supers
  | statements body => Stmt.supersAll body
  | loop condition body => condition.supers.map (·, 0) ++ body.supers
  | program body => Stmt.supersAll body

/-- The classes that are declared in the code of a task. -/
def classes : Task → List ClassParts
  | expression _ | arguments _ | application _ _ _ | entry _ _ _ => []
  | statement s => s.classes
  | statements body => Stmt.classesAll body
  | loop _ body => body.classes
  | program body => Stmt.classesAll body

/-- The values that a task is given. -/
def operands : Task → List Value
  | application callee values _ => callee :: values
  | entry f values _ => .function f :: values
  | _ => []

/-- The task runs code in a scope of its own. -/
def OpensScope : Task → Prop
  | statement (.block _) | entry _ _ _ => True
  | _ => False

end Task

/-- A task that opens no scope starts others in its own environment. -/
theorem Configuration.Starts.environment_eq {c d : Configuration} (h : c.Starts d)
    (hscope : ¬ c.task.OpensScope) : d.machine.environment = c.machine.environment := by
  obtain ⟨between, hrestored, henters⟩ := h.between fun e _ => endsIn_restored e
  cases henters with
  | here | call => exact hrestored.environment
  | block | entry => exact absurd trivial hscope

/-- What a task starts without opening a scope is part of its code and is in the same environment. -/
theorem Configuration.Starts.inward {c d : Configuration} (h : c.Starts d)
    (hscope : ¬ c.task.OpensScope) :
    d.machine.environment = c.machine.environment ∧ d.task.supers ⊆ c.task.supers ∧
      d.task.classes ⊆ c.task.classes := by
  refine ⟨h.environment_eq hscope, ?_⟩
  cases h with
  | block | functionBody => exact absurd trivial hscope
  | @condition _ _ _ _ elseBranch | @thenBranch _ _ _ _ elseBranch =>
    cases elseBranch <;> simp [Task.supers, Task.classes, Stmt.supers, Stmt.classes]
  | _ =>
    simp [Task.supers, Task.classes, Stmt.supers, Stmt.classes, Stmt.supersAll, Stmt.classesAll,
      Expr.supers, Expr.supersAll, Expr.supers?]

theorem Stmt.OrdinaryFunction.params {f : FunctionDef} (h : Stmt.OrdinaryFunction f) :
    ∀ param ∈ f.params, OrdinaryName param.text := by
  obtain ⟨name, params, body⟩ := f
  exact h.2.1

/-! ### Tasks with roots -/

/-- The task has been begun, what it finds has roots, and its code is where it belongs. -/
structure Configuration.Rooted (done : Configuration → Prop) (c : Configuration) : Prop where
  begun : done c
  machine : c.machine.Rooted done
  operands : ∀ value ∈ c.task.operands, value.Rooted done c.machine
  supers : ∀ p ∈ c.task.supers, c.machine.Houses done c.machine.environment p
  classes : ∀ parts ∈ c.task.classes, parts.Recorded fun id => c.machine.depths[id]?

/-- The tasks include what they start, and their code is what can be read. -/
structure Begun (done : Configuration → Prop) : Prop where
  under : ∀ c, done c → c.Under .ofReading
  starts : ∀ c d, done c → c.Starts d → done d

variable {done : Configuration → Prop} {c d : Configuration} {m : Machine} {n : Nat}

namespace Begun

theorem grows (H : Begun done) (hc : done c) (h : c.Starts d) : c.machine.Grows d.machine :=
  (H.under c hc).traced.path.grows (Configuration.begins_mem_trace_iff.2 (.single h))

/-- A part of a task that opens no scope has roots if what it finds has. -/
theorem part (H : Begun done) (hc : c.Rooted done) (h : c.Starts d) (hm : d.machine.Rooted done)
    (hscope : ¬ c.task.OpensScope)
    (ho : ∀ value ∈ d.task.operands, value.Rooted done d.machine) : d.Rooted done := by
  obtain ⟨henv, hsupers, hclasses⟩ := h.inward hscope
  have hg := H.grows hc.begun h
  refine ⟨H.starts c d hc.begun h, hm, ho, fun p hp => ?_, fun parts hparts => ?_⟩
  · rw [henv]
    exact (hc.supers p (hsupers hp)).mono hg
  · exact (hc.classes parts (hclasses hparts)).mono hg.depths

/-- A part of a task that is given no values. -/
theorem inner (H : Begun done) (hc : c.Rooted done) (h : c.Starts d) (hm : d.machine.Rooted done)
    (hscope : ¬ c.task.OpensScope := by exact id) (ho : d.task.operands = [] := by rfl) :
    d.Rooted done := by
  refine H.part hc h hm hscope ?_
  rw [ho]
  exact nofun

end Begun

/-- Everything with the bound `n` that is begun among values with roots gives such values. -/
structure RootsAt (done : Configuration → Prop) (n : Nat) : Prop where
  evaluate : ∀ {m} (e : Expr), Configuration.Rooted done ⟨n, m, .expression e⟩ →
    Roots done m (e.evaluate n) fun value after => value.Rooted done after
  evaluateAll : ∀ {m} es, Configuration.Rooted done ⟨n, m, .arguments es⟩ →
    Roots done m (evaluateAll n es) fun values after => ∀ value ∈ values, value.Rooted done after
  apply : ∀ {m} (callee : Value) arguments line,
    Configuration.Rooted done ⟨n, m, .application callee arguments line⟩ →
    Roots done m (callee.apply n arguments line) fun value after => value.Rooted done after
  enter : ∀ {m} (f : Function) arguments line,
    Configuration.Rooted done ⟨n, m, .entry f arguments line⟩ →
    Roots done m (f.enter n arguments line) fun value after => value.Rooted done after
  execute : ∀ {m} (s : Stmt), Configuration.Rooted done ⟨n, m, .statement s⟩ →
    Roots done m (s.execute n) fun completion after => completion.Rooted done after
  executeAll : ∀ {m} body, Configuration.Rooted done ⟨n, m, .statements body⟩ →
    Roots done m (executeAll n body) fun completion after => completion.Rooted done after
  repeatWhile : ∀ {m} condition body, Configuration.Rooted done ⟨n, m, .loop condition body⟩ →
    Roots done m (repeatWhile n condition body) fun completion after => completion.Rooted done after

namespace RootsAt

open Configuration.Starts

theorem value_mono : ∀ (value : Value) (s t : Machine), s.Grows t → value.Rooted done s →
    value.Rooted done t := fun _ _ _ hg h => h.mono hg

theorem completion_mono : ∀ (completion : Completion) (s t : Machine), s.Grows t →
    completion.Rooted done s → completion.Rooted done t := by
  intro completion s t hg h
  cases completion with
  | normal => trivial
  | returned value => exact Value.Rooted.mono h hg

theorem initialValue (ih : RootsAt done n) (value : Option Expr) (hm : m.Rooted done)
    (he : ∀ e ∈ value, Configuration.Rooted done ⟨n, m, .expression e⟩) :
    Roots done m (Run.initialValue n value) fun value after => value.Rooted done after := by
  cases value with
  | none => exact Roots.pure hm trivial
  | some e => exact ih.evaluate e (he e rfl)

variable (H : Begun done)

include H

/-- The call of a value that the operands have given. -/
theorem call (ih : RootsAt done n) {after later : Machine} {callee : Expr}
    {arguments : List Expr} {line : Nat} {f : Value} {values : List Value}
    (hc : Configuration.Rooted done ⟨n + 1, m, .expression (.call callee arguments line)⟩)
    (hcallee : callee.evaluate n m = .ok f after)
    (harguments : Lox.evaluateAll n arguments after = .ok values later)
    (harity : f.arity? = some values.length) (hdepth : later.callDepth < later.maxCallDepth) :
    Configuration.Rooted done
      ⟨n, { later with callDepth := later.callDepth + 1 }, .application f values line⟩ := by
  obtain ⟨-, hm, hf⟩ := (ih.evaluate callee (H.inner hc .callee hc.machine)).of_ok hcallee
  obtain ⟨hg, hl, hvalues⟩ :=
    (ih.evaluateAll arguments (H.inner hc (.arguments hcallee) hm)).of_ok harguments
  have hsame : later.Grows { later with callDepth := later.callDepth + 1 } :=
    .of_eq rfl rfl rfl rfl
  have hstarts : Configuration.Starts ⟨n + 1, m, .expression (.call callee arguments line)⟩ _ :=
    .call hcallee harguments harity hdepth
  refine H.part hc hstarts (hl.of_eq rfl rfl rfl rfl rfl) id ?_
  rw [Task.operands, List.forall_mem_cons]
  exact ⟨(hf.mono hg).mono hsame, fun value hv => (hvalues value hv).mono hsame⟩

/-- The initializer of a new instance. -/
theorem initializer {after later : Machine} {c : Class} {arguments : List Value} {line : Nat}
    {object : Instance} {f bound : Function}
    (hc : Configuration.Rooted done ⟨n + 1, m, .application (.ofClass c) arguments line⟩)
    (hobject : instantiate c m = .ok object after) (hinit : c.initializer? = some f)
    (hbound : Run.bind f object after = .ok bound later) :
    Configuration.Rooted done ⟨n, later, .entry bound arguments line⟩ := by
  obtain ⟨hclass, harguments⟩ := List.forall_mem_cons.1 hc.operands
  obtain ⟨hg, hm, ho⟩ := (Roots.instantiate hc.machine hclass).of_ok hobject
  obtain ⟨hg', hl, hf, -⟩ := hm.bindMethod (Class.Rooted.mono hclass hg) hinit ho hbound
  refine H.part hc (.initializer hobject hinit hbound) hl id ?_
  rw [Task.operands, List.forall_mem_cons]
  exact ⟨hf, fun value hv => ((harguments value hv).mono hg).mono hg'⟩

theorem succ_call (ih : RootsAt done n) (callee : Expr) (arguments : List Expr) (line : Nat)
    (hc : Configuration.Rooted done ⟨n + 1, m, .expression (.call callee arguments line)⟩) :
    Roots done m ((Expr.call callee arguments line).evaluate (n + 1)) fun value after =>
      value.Rooted done after := by
  rw [Expr.evaluate]
  refine Roots.bind (ih.evaluate callee (H.inner hc .callee hc.machine)) fun c after ho _ hm hf => ?_
  refine Roots.bind (ih.evaluateAll arguments (H.inner hc (.arguments ho) hm))
    fun values later harguments hg hl hvalues => ?_
  cases harity : c.arity? with
  | none => exact Roots.raise hl _ _
  | some arity =>
    simp only
    split
    · next hlength =>
      refine Roots.asCall hl (fun hdepth => ?_) value_mono
      exact ih.apply c values line
        (call H ih hc ho harguments (harity.trans (congrArg some hlength.symm)) hdepth)
    · exact Roots.raise hl _ _

theorem succ_evaluate (ih : RootsAt done n) (e : Expr)
    (hc : Configuration.Rooted done ⟨n + 1, m, .expression e⟩) :
    Roots done m (e.evaluate (n + 1)) fun value after => value.Rooted done after := by
  have hordinary : e.Ordinary := (H.under _ hc.begun).2
  cases e with
  | literal value =>
    exact Roots.pure hc.machine (Value.IsPlain.rooted (Value.isPlain_ofLiteral value))
  | grouping inner => exact ih.evaluate inner (H.inner hc .inner hc.machine)
  | unary operator operand line =>
    rw [Expr.evaluate]
    refine Roots.bind (ih.evaluate operand (H.inner hc .operand hc.machine)) fun a after _ _ hm _ => ?_
    exact Roots.located hm fun _ hr => Value.IsPlain.rooted (UnaryOperator.isPlain_apply hr)
  | binary left operator right line =>
    rw [Expr.evaluate]
    refine Roots.bind (ih.evaluate left (H.inner hc .left hc.machine)) fun a after ho _ hm _ => ?_
    refine Roots.bind (ih.evaluate right (H.inner hc (.right ho) hm)) fun b later _ _ hl _ => ?_
    exact Roots.located hl fun _ hr => Value.IsPlain.rooted (BinaryOperator.isPlain_apply hr)
  | logical left operator right =>
    rw [Expr.evaluate]
    refine Roots.bind (ih.evaluate left (H.inner hc .decider hc.machine)) fun a after ho _ hm ha => ?_
    split
    · exact Roots.pure hm ha
    · next hd => exact ih.evaluate right (H.inner hc (.undecided ho (Bool.eq_false_iff.2 hd)) hm)
  | reference target => exact Roots.valueOf hc.machine _ _ _
  | assign target value =>
    rw [Expr.evaluate]
    refine Roots.bind (ih.evaluate value (H.inner hc .assigned hc.machine)) fun a after _ _ hm ha => ?_
    exact Roots.bind (Roots.assign hm hordinary.1 ha) fun _ later _ _ hl ha => Roots.pure hl ha
  | call callee arguments line => exact ih.succ_call H callee arguments line hc
  | get object name =>
    rw [Expr.evaluate]
    refine Roots.bind (ih.evaluate object (H.inner hc .getObject hc.machine))
      fun value after _ _ hm hv => ?_
    cases value with
    | ofInstance object => exact Roots.property hm hv name
    | _ => exact Roots.raise hm _ _
  | set object name value =>
    rw [Expr.evaluate]
    refine Roots.bind (ih.evaluate object (H.inner hc .setObject hc.machine))
      fun found after ho _ hm _ => ?_
    cases found with
    | ofInstance object =>
      refine Roots.bind (ih.evaluate value (H.inner hc (.setValue ho) hm))
        fun a later _ _ hl ha => ?_
      exact Roots.bind (Roots.setField hl object name.text ha) fun _ last _ _ hlast ha =>
        Roots.pure hlast ha
    | _ => exact Roots.raise hm _ _
  | this id line => exact Roots.valueOf hc.machine _ _ _
  | super id line method => exact Roots.superMethod hc.machine _ _ _

theorem succ_evaluateAll (ih : RootsAt done n) (es : List Expr)
    (hc : Configuration.Rooted done ⟨n + 1, m, .arguments es⟩) :
    Roots done m (Lox.evaluateAll (n + 1) es) fun values after =>
      ∀ value ∈ values, value.Rooted done after := by
  cases es with
  | nil => exact Roots.pure hc.machine nofun
  | cons e rest =>
    rw [Lox.evaluateAll]
    refine Roots.bind (ih.evaluate e (H.inner hc .firstArgument hc.machine))
      fun a after ho _ hm ha => ?_
    refine Roots.bind (ih.evaluateAll rest (H.inner hc (.otherArguments ho) hm))
      fun values later _ hg hl hvalues => ?_
    refine Roots.pure hl ?_
    rw [List.forall_mem_cons]
    exact ⟨ha.mono hg, hvalues⟩

theorem succ_apply (ih : RootsAt done n) (callee : Value) (arguments : List Value) (line : Nat)
    (hc : Configuration.Rooted done ⟨n + 1, m, .application callee arguments line⟩) :
    Roots done m (callee.apply (n + 1) arguments line) fun value after =>
      value.Rooted done after := by
  have hoperands := hc.operands
  rw [Task.operands, List.forall_mem_cons] at hoperands
  obtain ⟨hcallee, harguments⟩ := hoperands
  cases callee with
  | native f =>
    rw [Value.apply]
    exact Roots.callHost hc.machine f line harguments
  | function f =>
    rw [Value.apply]
    exact ih.enter f arguments line (H.part hc .function hc.machine id hc.operands)
  | ofClass c =>
    rw [Value.apply]
    refine Roots.bind (Roots.instantiate hc.machine hcallee) fun object after hobject hg hm ho => ?_
    cases hinit : c.initializer? with
    | none => exact Roots.pure hm ho
    | some f =>
      refine Roots.bind (P := fun _ _ => True) ?_ fun f later hbound hg' hl _ => ?_
      · obtain ⟨hg', hl, -⟩ := hm.bindMethod (hcallee.mono hg) hinit ho rfl
        exact ⟨⟨hg', hl⟩, trivial⟩
      · have hentry := initializer H hc hobject hinit hbound
        refine Roots.bind (ih.enter f arguments line hentry) fun _ last _ hg₂ hlast _ => ?_
        exact Roots.pure hlast ((Instance.Rooted.mono ho hg').mono hg₂)
  | _ => exact Roots.raise hc.machine _ _

theorem functionBody {f : Function} {arguments : List Value} {line : Nat} {frame : Environment}
    {after : Machine} (hc : Configuration.Rooted done ⟨n + 1, m, .entry f arguments line⟩)
    (hframe : newScope f.closure (.ofList (f.declaration.paramNames.zip arguments)) m =
      .ok frame after) :
    Configuration.Rooted done
      ⟨n, { after with environment := frame }, .statements f.declaration.body⟩ := by
  obtain ⟨hf, harguments⟩ := List.forall_mem_cons.1 hc.operands
  have hstarts : Configuration.Starts ⟨n + 1, m, .entry f arguments line⟩ _ := .functionBody hframe
  have hg := H.grows hc.begun hstarts
  have hordinary : Stmt.OrdinaryFunction f.declaration :=
    Regime.ordinary _ (Regime.code _ (H.under _ hc.begun).2.1)
  cases hframe
  have hnone : (Table.ofList (f.declaration.paramNames.zip arguments)).get? "this" = none := by
    refine Option.eq_none_iff_forall_ne_some.2 fun value hv => ?_
    obtain ⟨param, hparam, heq⟩ := List.mem_map.1
      (List.of_mem_zip (Table.mem_of_get?_ofList hv)).1
    exact (hordinary.params param hparam).1 heq
  refine ⟨H.starts _ _ hc.begun hstarts, ?_, nofun, fun p hp => ?_, fun parts hparts => ?_⟩
  · refine (hc.machine.push _ fun name value hv => ?_).of_eq rfl rfl rfl rfl rfl
    exact harguments value (List.of_mem_zip (Table.mem_of_get?_ofList hv)).2
  · have hdeeper : Stmt.deeper p ∈ Stmt.functionSupers f.declaration := by
      rw [Stmt.functionSupers_eq]
      exact List.mem_map_of_mem hp
    exact ((hf.supers _ hdeeper).inner hc.machine.global hnone).mono (.of_eq rfl rfl rfl rfl)
  · have hparts : parts ∈ Stmt.functionClasses f.declaration := by
      rwa [Stmt.functionClasses_eq]
    exact (hf.classes parts hparts).mono hg.depths

theorem block {body : List Stmt} {frame : Environment} {after : Machine}
    (hc : Configuration.Rooted done ⟨n + 1, m, .statement (.block body)⟩)
    (hframe : newScope m.environment ∅ m = .ok frame after) :
    Configuration.Rooted done ⟨n, { after with environment := frame }, .statements body⟩ := by
  have hstarts : Configuration.Starts ⟨n + 1, m, .statement (.block body)⟩ _ := .block hframe
  have hg := H.grows hc.begun hstarts
  cases hframe
  refine ⟨H.starts _ _ hc.begun hstarts, ?_, nofun, fun p hp => ?_, fun parts hparts => ?_⟩
  · exact (hc.machine.push ∅ nofun).of_eq rfl rfl rfl rfl rfl
  · exact ((hc.supers _ (List.mem_map_of_mem hp)).inner hc.machine.global rfl).mono
      (.of_eq rfl rfl rfl rfl)
  · exact (hc.classes parts hparts).mono hg.depths

theorem succ_enter (ih : RootsAt done n) (f : Function) (arguments : List Value) (line : Nat)
    (hc : Configuration.Rooted done ⟨n + 1, m, .entry f arguments line⟩) :
    Roots done m (f.enter (n + 1) arguments line) fun value after => value.Rooted done after := by
  rw [Function.enter_succ]
  have hbody := ih.executeAll f.declaration.body (functionBody H hc rfl)
  refine Roots.bind (P := fun completion after => completion.Rooted done after) ?_
    fun completion after _ _ hm hcompletion => Roots.callResult hm f line hcompletion
  refine Roots.of_afterwards (g := fun after => { after with environment := m.environment }) rfl
    hbody (H.grows hc.begun (.functionBody rfl))
    (fun _ hlater => ⟨.of_eq rfl rfl rfl rfl, hlater.of_eq rfl rfl rfl rfl rfl⟩)
    fun completion _ hg hcompletion => completion_mono completion _ _ hg hcompletion

theorem succ_classDef (name : Identifier) (target : Option Reference) (methods : List FunctionDef)
    (hc : Configuration.Rooted done ⟨n + 1, m, .statement (.classDef name target methods)⟩) :
    Roots done m ((Stmt.classDef name target methods).execute (n + 1)) fun completion after =>
      completion.Rooted done after := by
  have hordinary := (H.under _ hc.begun).2.ordinary
  cases hsuper : Run.superclass? target m with
  | ok superclass after =>
    obtain rfl := Run.superclass?_ok hsuper
    obtain ⟨hg, hclass⟩ := hc.machine.withClass hc.begun hsuper hordinary.1 hc.classes
    unfold Roots
    rw [Stmt.execute_classDef_of_ok hsuper]
    exact ⟨⟨hg, hclass⟩, trivial⟩
  | error e after =>
    have hroots : Roots done m (Run.superclass? target) fun _ _ => True := by
      cases target with
      | none => exact Roots.pure hc.machine trivial
      | some target =>
        refine Roots.bind (Roots.valueOf hc.machine _ _ _) fun value after _ _ hm _ => ?_
        cases value with
        | ofClass c => exact Roots.pure hm trivial
        | _ => exact Roots.raise hm _ _
    unfold Roots at hroots ⊢
    rw [hsuper] at hroots
    rw [Stmt.execute_classDef, bind_apply_of_error hsuper]
    exact hroots
  | exhausted =>
    unfold Roots
    rw [Stmt.execute_classDef, bind_apply_of_exhausted hsuper]
    trivial

theorem succ_function (declaration : FunctionDef)
    (hc : Configuration.Rooted done ⟨n + 1, m, .statement (.function declaration)⟩) :
    Roots done m ((Stmt.function declaration).execute (n + 1)) fun completion after =>
      completion.Rooted done after := by
  have hname : OrdinaryName declaration.name.text := by
    have hordinary := (H.under _ hc.begun).2.ordinary
    obtain ⟨name, params, body⟩ := declaration
    exact hordinary.1
  have hg : m.Grows { m with nextIdentity := m.nextIdentity + 1 } := .freshIdentity m 1
  have hf : Function.Rooted done { m with nextIdentity := m.nextIdentity + 1 }
      ⟨m.nextIdentity, declaration, m.environment, false⟩ :=
    ⟨Nat.lt_succ_self _, fun parts hparts => (hc.classes parts hparts).mono hg.depths,
      fun p hp => (hc.supers p hp).mono hg, .inl ⟨rfl, n, m, hc.begun, rfl, rfl⟩⟩
  have hdefine := Roots.define (hc.machine.freshIdentity 1) (v := .function _) hname hf
  rw [Stmt.execute]
  refine Roots.bind (P := fun env later => env = m.environment ∧ later = m)
    (Roots.read hc.machine ⟨rfl, rfl⟩) fun closure after _ _ _ hclosure => ?_
  obtain ⟨rfl, rfl⟩ := hclosure
  refine Roots.bind (P := fun id later => id = after.nextIdentity ∧
      later = { after with nextIdentity := after.nextIdentity + 1 })
    ⟨⟨hg, hc.machine.freshIdentity 1⟩, rfl, rfl⟩ fun id later _ _ _ hid => ?_
  obtain ⟨rfl, rfl⟩ := hid
  exact Roots.bind hdefine fun _ last _ _ hlast _ => Roots.pure hlast trivial

theorem succ_execute (ih : RootsAt done n) (s : Stmt)
    (hc : Configuration.Rooted done ⟨n + 1, m, .statement s⟩) :
    Roots done m (s.execute (n + 1)) fun completion after => completion.Rooted done after := by
  have hordinary := (H.under _ hc.begun).2.ordinary
  cases s with
  | expression value =>
    rw [Stmt.execute]
    exact Roots.bind (ih.evaluate value (H.inner hc .expression hc.machine))
      fun _ after _ _ hm _ => Roots.pure hm trivial
  | print value =>
    rw [Stmt.execute]
    refine Roots.bind (ih.evaluate value (H.inner hc .printed hc.machine)) fun a after _ _ hm _ => ?_
    refine Roots.bind (Roots.write hm _ _) fun _ later _ _ hl _ => ?_
    refine Roots.bind (Roots.write hl _ _) fun _ last _ _ hlast _ => ?_
    exact Roots.pure hlast trivial
  | var name initial =>
    rw [Stmt.execute_var]
    refine Roots.bind (initialValue ih initial hc.machine ?_) fun value after _ _ hm hv => ?_
    · rintro e rfl
      exact H.inner hc .initial hc.machine
    · exact Roots.bind (Roots.define hm hordinary.1 hv) fun _ later _ _ hl _ =>
        Roots.pure hl trivial
  | block body =>
    rw [Stmt.execute]
    have hbody := ih.executeAll body (block H hc rfl)
    exact Roots.of_afterwards (g := fun after => { after with environment := m.environment }) rfl
      hbody (H.grows hc.begun (.block rfl))
      (fun _ hlater => ⟨.of_eq rfl rfl rfl rfl, hlater.of_eq rfl rfl rfl rfl rfl⟩)
      fun completion _ hg hcompletion => completion_mono completion _ _ hg hcompletion
  | conditional condition thenBranch elseBranch =>
    rw [Stmt.execute_conditional]
    refine Roots.bind (ih.evaluate condition (H.inner hc .condition hc.machine))
      fun a after ho _ hm _ => ?_
    split
    · next ha => exact ih.execute thenBranch (H.inner hc (.thenBranch ho ha) hm)
    · next ha =>
      cases elseBranch with
      | none => exact Roots.pure hm trivial
      | some elseBranch =>
        exact ih.execute elseBranch (H.inner hc (.elseBranch ho (Bool.eq_false_iff.2 ha)) hm)
  | whileLoop condition body =>
    rw [Stmt.execute]
    exact ih.repeatWhile condition body (H.inner hc .whileLoop hc.machine)
  | function declaration => exact succ_function H declaration hc
  | ret line value =>
    rw [Stmt.execute_ret]
    refine Roots.bind (initialValue ih value hc.machine ?_) fun a after _ _ hm ha => Roots.pure hm ha
    rintro e rfl
    exact H.inner hc .result hc.machine
  | classDef name target methods => exact succ_classDef H name target methods hc

theorem succ_executeAll (ih : RootsAt done n) (body : List Stmt)
    (hc : Configuration.Rooted done ⟨n + 1, m, .statements body⟩) :
    Roots done m (Lox.executeAll (n + 1) body) fun completion after =>
      completion.Rooted done after := by
  cases body with
  | nil => exact Roots.pure hc.machine trivial
  | cons s rest =>
    rw [Lox.executeAll]
    refine Roots.bind (ih.execute s (H.inner hc .firstStatement hc.machine))
      fun completion after ho _ hm hcompletion => ?_
    cases completion with
    | returned value => exact Roots.pure hm hcompletion
    | normal => exact ih.executeAll rest (H.inner hc (.otherStatements ho) hm)

theorem succ_repeatWhile (ih : RootsAt done n) (condition : Expr) (body : Stmt)
    (hc : Configuration.Rooted done ⟨n + 1, m, .loop condition body⟩) :
    Roots done m (Lox.repeatWhile (n + 1) condition body) fun completion after =>
      completion.Rooted done after := by
  rw [Lox.repeatWhile]
  refine Roots.bind (ih.evaluate condition (H.inner hc .loopCondition hc.machine))
    fun a after ho _ hm _ => ?_
  split
  · next ha =>
    refine Roots.bind (ih.execute body (H.inner hc (.loopBody ho ha) hm))
      fun completion later hbody _ hl hcompletion => ?_
    cases completion with
    | returned value => exact Roots.pure hl hcompletion
    | normal => exact ih.repeatWhile condition body (H.inner hc (.nextRound ho ha hbody) hl)
  · exact Roots.pure hm trivial

end RootsAt

/-- Evaluation gives values with roots, whatever its bound. -/
theorem rootsAt (H : Begun done) (n : Nat) : RootsAt done n := by
  induction n with
  | zero => constructor <;> intros <;> trivial
  | succ n ih =>
    exact ⟨ih.succ_evaluate H, ih.succ_evaluateAll H, ih.succ_apply H, ih.succ_enter H,
      ih.succ_execute H, ih.succ_executeAll H, ih.succ_repeatWhile H⟩

/-- The statements of a program in a row. -/
theorem roots_runProgram (H : Begun done) (statements : List Stmt)
    (hc : Configuration.Rooted done ⟨n, m, .program statements⟩) :
    Roots done m (runProgram n statements) fun _ _ => True := by
  induction statements generalizing m with
  | nil => exact Roots.pure hc.machine trivial
  | cons s rest ih =>
    refine Roots.bind ((rootsAt H n).execute s (H.inner hc .firstOfProgram hc.machine))
      fun completion after ho _ hm _ => ?_
    exact ih (H.inner hc (.restOfProgram ho) hm)

namespace Configuration.Rooted

/-- Whatever a task leaves behind has roots. -/
theorem after (H : Begun done) (hc : c.Rooted done) {m : Machine} (h : c.after? = some m) :
    m.Rooted done := by
  obtain ⟨n, _, task⟩ := c
  cases task with
  | expression e => exact ((rootsAt H n).evaluate e hc).of_state h
  | arguments es => exact ((rootsAt H n).evaluateAll es hc).of_state h
  | application callee arguments line =>
    exact ((rootsAt H n).apply callee arguments line hc).of_state h
  | entry f arguments line => exact ((rootsAt H n).enter f arguments line hc).of_state h
  | statement s => exact ((rootsAt H n).execute s hc).of_state h
  | statements body => exact ((rootsAt H n).executeAll body hc).of_state h
  | loop condition body => exact ((rootsAt H n).repeatWhile condition body hc).of_state h
  | program statements => exact (roots_runProgram H statements hc).of_state h

/-- An expression among values with roots gives such a value. -/
theorem of_evaluate (H : Begun done) {n : Nat} {m later : Machine} {e : Expr} {value : Value}
    (hc : Configuration.Rooted done ⟨n, m, .expression e⟩) (ho : e.evaluate n m = .ok value later) :
    m.Grows later ∧ later.Rooted done ∧ value.Rooted done later :=
  ((rootsAt H n).evaluate e hc).of_ok ho

theorem of_execute (H : Begun done) {n : Nat} {m later : Machine} {s : Stmt}
    {completion : Completion} (hc : Configuration.Rooted done ⟨n, m, .statement s⟩)
    (ho : s.execute n m = .ok completion later) : later.Rooted done :=
  (((rootsAt H n).execute s hc).of_ok ho).2.1

/-- Every task that one with roots starts has roots. -/
theorem starts (H : Begun done) (hc : c.Rooted done) (h : c.Starts d) : d.Rooted done := by
  have hstarts := h
  cases h with
  | inner | operand | left | decider | assigned | callee | getObject | setObject | firstArgument
  | expression | printed | initial | condition | whileLoop | result | superclass | firstStatement
  | loopCondition | firstOfProgram => exact H.inner hc hstarts hc.machine
  | right ho => exact H.inner hc hstarts ((H.inner hc .left hc.machine).of_evaluate H ho).2.1
  | undecided ho => exact H.inner hc hstarts ((H.inner hc .decider hc.machine).of_evaluate H ho).2.1
  | arguments ho => exact H.inner hc hstarts ((H.inner hc .callee hc.machine).of_evaluate H ho).2.1
  | setValue ho =>
    exact H.inner hc hstarts ((H.inner hc .setObject hc.machine).of_evaluate H ho).2.1
  | otherArguments ho =>
    exact H.inner hc hstarts ((H.inner hc .firstArgument hc.machine).of_evaluate H ho).2.1
  | thenBranch ho | elseBranch ho =>
    exact H.inner hc hstarts ((H.inner hc .condition hc.machine).of_evaluate H ho).2.1
  | loopBody ho =>
    exact H.inner hc hstarts ((H.inner hc .loopCondition hc.machine).of_evaluate H ho).2.1
  | nextRound ho ha hbody =>
    have hm := ((H.inner hc .loopCondition hc.machine).of_evaluate H ho).2.1
    exact H.inner hc hstarts ((H.inner hc (.loopBody ho ha) hm).of_execute H hbody)
  | otherStatements ho =>
    exact H.inner hc hstarts ((H.inner hc .firstStatement hc.machine).of_execute H ho)
  | restOfProgram ho =>
    exact H.inner hc hstarts ((H.inner hc .firstOfProgram hc.machine).of_execute H ho)
  | call hcallee harguments harity hdepth =>
    exact RootsAt.call H (rootsAt H _) hc hcallee harguments harity hdepth
  | function => exact H.part hc hstarts hc.machine id hc.operands
  | initializer hobject hinit hbound => exact RootsAt.initializer H hc hobject hinit hbound
  | functionBody hframe => exact RootsAt.functionBody H hc hframe
  | block hframe => exact RootsAt.block H hc hframe

theorem reaches (H : Begun done) (hc : c.Rooted done) (h : c.Reaches d) : d.Rooted done := by
  induction h with
  | refl => exact hc
  | tail _ hstep ih => exact ih.starts H hstep

end Configuration.Rooted

end Lox
