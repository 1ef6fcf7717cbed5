import Lox.Proofs.Evaluation.NestedSteps

/-!
# Runs in nested environments

A task in a nested environment starts only tasks of this kind, and when it ends, the machine that it
leaves behind and the values that it gives are nested. So all environments at the events of a run
are nested.

## Implementation notes

That a part of a task is nested depends on how the parts before it have ended, and how the task ends
depends on how all of its parts do. So the induction is along the parts of tasks, and each step of
it first shows that the parts are nested.
-/

namespace Lox

open Procedure Run

/-! ### The code of a task -/

/-- The code of a task has its depths among these scopes. A call has its code in its function. -/
def Task.Placed (depths : Depths) (names : ScopeNames) : Task → Prop
  | expression e => e.Placed depths names
  | arguments es => Expr.PlacedAll depths names es
  | application _ _ _ | entry _ _ _ => True
  | statement s => s.Placed depths names
  | statements body => Stmt.PlacedAll depths names body
  | loop condition body => condition.Placed depths names ∧ body.Placed depths names
  | program body => Stmt.PlacedAll depths names body

variable {done : Configuration → Prop} {depths : Depths} {c d : Configuration} {m after : Machine}
  {n : Nat} {names : ScopeNames}

theorem ScopeNames.after_eq_or (names : ScopeNames) (s : Stmt) :
    names.after s = names ∨ ∃ name, names.after s = names.declare name := by
  unfold ScopeNames.after
  cases s.declared? with
  | none => exact .inl rfl
  | some name => exact .inr ⟨name, rfl⟩

/-- What a task starts without opening a scope is in the same scopes, where one more name may have
been declared. -/
theorem Configuration.Starts.placed (h : c.Starts d) (hscope : ¬ c.task.OpensScope)
    (hp : c.task.Placed depths names) :
    d.task.Placed depths names ∨ ∃ name, d.task.Placed depths (names.declare name) := by
  have later : ∀ {s rest}, Stmt.PlacedAll depths (names.after s) rest →
      Stmt.PlacedAll depths names rest ∨
        ∃ name, Stmt.PlacedAll depths (names.declare name) rest := by
    intro s rest hrest
    rcases names.after_eq_or s with heq | ⟨name, heq⟩
    · exact .inl (heq ▸ hrest)
    · exact .inr ⟨name, heq ▸ hrest⟩
  cases h with
  | block | functionBody => exact absurd trivial hscope
  | call | function | initializer => exact .inl trivial
  | inner | operand | getObject | expression | printed => exact .inl hp
  | left | decider | callee | setObject | firstArgument | firstStatement | firstOfProgram
  | loopCondition => exact .inl hp.1
  | right | undecided | arguments | setValue | otherArguments | loopBody => exact .inl hp.2
  | assigned => exact .inl hp.2.2
  | @initial _ _ name value => exact .inr ⟨name.text, (hp.2.2 value rfl).1⟩
  | @result _ _ _ value => exact .inl (hp value rfl)
  | @condition _ _ _ _ elseBranch =>
    left
    cases elseBranch with
    | none => exact hp.1
    | some elseBranch => exact hp.1
  | @thenBranch _ _ _ _ elseBranch =>
    left
    cases elseBranch with
    | none => exact hp.2.2
    | some elseBranch => exact hp.2.1.2
  | elseBranch => exact .inl hp.2.2.2
  | whileLoop => exact .inl ⟨hp.1, hp.2.2⟩
  | nextRound => exact .inl hp
  | superclass => exact .inl hp.2.2.1
  | otherStatements | restOfProgram => exact later hp.2

theorem Stmt.PlacedFunction.body {f : FunctionDef} (h : Stmt.PlacedFunction depths names f) :
    Stmt.PlacedAll depths (f.paramNames.reverse :: names) f.body := by
  obtain ⟨name, params, body⟩ := f
  exact h.2.2

/-! ### Tasks in nested environments -/

section Tasks

variable (done) (depths)

/-- The task has been begun among nested values, in the scopes where its code belongs. -/
structure Configuration.Nested (c : Configuration) : Prop where
  begun : done c
  machine : c.machine.Nested done depths
  operands : ∀ value ∈ c.task.operands, value.Nested done depths c.machine
  within : c.machine.environment.Within c.machine.store.size
  placed : ∃ names, c.machine.environment.Nested done .code names ∧ c.task.Placed depths names

def Completion.Nested (m : Machine) (completion : Completion) : Prop :=
  ∀ value ∈ completion.values, value.Nested done depths m

/-- When the task ends, the machine and the values are nested. -/
def Configuration.Ends : Configuration → Prop
  | ⟨n, m, .expression e⟩ =>
    Nests done depths m (e.evaluate n) fun value after => value.Nested done depths after
  | ⟨n, m, .arguments es⟩ =>
    Nests done depths m (evaluateAll n es) fun values after =>
      ∀ value ∈ values, value.Nested done depths after
  | ⟨n, m, .application callee arguments line⟩ =>
    Nests done depths m (callee.apply n arguments line) fun value after =>
      value.Nested done depths after
  | ⟨n, m, .entry f arguments line⟩ =>
    Nests done depths m (f.enter n arguments line) fun value after =>
      value.Nested done depths after
  | ⟨n, m, .statement s⟩ =>
    Nests done depths m (s.execute n) fun completion after => completion.Nested done depths after
  | ⟨n, m, .statements body⟩ =>
    Nests done depths m (executeAll n body) fun completion after =>
      completion.Nested done depths after
  | ⟨n, m, .loop condition body⟩ =>
    Nests done depths m (repeatWhile n condition body) fun completion after =>
      completion.Nested done depths after
  | ⟨n, m, .program statements⟩ => Nests done depths m (runProgram n statements) fun _ _ => True

/-- All parts of the task end so. -/
def Configuration.PartsEnd (c : Configuration) : Prop := ∀ d, c.Starts d → d.Ends done depths

end Tasks

theorem Completion.nested_normal : Completion.normal.Nested done depths m := by
  intro value hv
  cases hv

namespace Configuration.Nested

/-- A part of a task that opens no scope is nested if what it finds is. -/
theorem part (H : Charted done) (hc : c.Nested done depths) (h : c.Starts d)
    (hm : d.machine.Nested done depths) (hscope : ¬ c.task.OpensScope)
    (ho : ∀ value ∈ d.task.operands, value.Nested done depths d.machine := by exact nofun) :
    d.Nested done depths := by
  have henv := h.environment_eq hscope
  refine ⟨H.starts c d hc.begun h, hm, ho, ?_, ?_⟩
  · rw [henv]
    exact hc.within.mono (H.grows hc.begun h).store.size
  · rw [henv]
    obtain ⟨names, hnested, hp⟩ := hc.placed
    rcases h.placed hscope hp with hp | ⟨name, hp⟩
    · exact ⟨names, hnested, hp⟩
    · exact ⟨_, hnested.declare name, hp⟩

theorem block (H : Charted done) {body : List Stmt}
    (hc : Configuration.Nested done depths ⟨n + 1, m, .statement (.block body)⟩) :
    Configuration.Nested done depths ⟨n, { m with
      store := m.store.push ∅, environment := m.environment.inner m.store.size },
      .statements body⟩ := by
  have hopened : Opened done ⟨m.store.size, m.environment, .code⟩ := ⟨_, hc.begun, .block⟩
  obtain ⟨names, henv, hp⟩ := hc.placed
  refine ⟨H.starts _ _ hc.begun (.block rfl), ?_, nofun, ?_, _, .inner henv hopened trivial, hp⟩
  · exact (hc.machine.push H hopened ∅ nofun nofun).of_eq rfl rfl rfl rfl
  · exact hc.within.inner.mono (Nat.le_of_eq (Store.size_push ..).symm)

theorem functionBody (H : Charted done) {f : Function} {arguments : List Value} {line : Nat}
    (hc : Configuration.Nested done depths ⟨n + 1, m, .entry f arguments line⟩) :
    Configuration.Nested done depths ⟨n, { m with
      store := m.store.push (.ofList (f.declaration.paramNames.zip arguments)),
      environment := f.closure.inner m.store.size }, .statements f.declaration.body⟩ := by
  have hopened : Opened done ⟨m.store.size, f.closure, .code⟩ := ⟨_, hc.begun, .entry⟩
  obtain ⟨hf, harguments⟩ := List.forall_mem_cons.1 hc.operands
  obtain ⟨-, hwithin, p, names, henv, hp⟩ : f.Nested done depths m := hf
  refine ⟨H.starts _ _ hc.begun (.functionBody rfl), ?_, nofun, ?_, _,
    .inner henv hopened trivial, hp.body⟩
  · refine (hc.machine.push H hopened _ nofun fun name value hv => ?_).of_eq rfl rfl rfl rfl
    exact harguments value (List.of_mem_zip (Table.mem_of_get?_ofList hv)).2
  · exact hwithin.inner.mono (Nat.le_of_eq (Store.size_push ..).symm)

/-- Whatever the task starts is nested, if those that are nested among its parts end so. -/
theorem starts (H : Charted done) (hc : c.Nested done depths)
    (hparts : ∀ e, c.Starts e → e.Nested done depths → e.Ends done depths) (h : c.Starts d) :
    d.Nested done depths := by
  by_cases hscope : c.task.OpensScope
  · cases h with
    | block hframe =>
      cases hframe
      exact block H hc
    | functionBody hframe =>
      cases hframe
      exact functionBody H hc
    | _ => exact absurd hscope id
  have value : ∀ {n m e a after}, c.Starts ⟨n, m, .expression e⟩ → m.Nested done depths →
      e.evaluate n m = .ok a after → after.Nested done depths ∧ a.Nested done depths after := by
    intro n m e a after hstart hm ho
    obtain ⟨hafter, -, ha⟩ := Nests.of_ok (hparts _ hstart (hc.part H hstart hm hscope)) ho
    exact ⟨hafter, ha⟩
  have completion : ∀ {n m s a after}, c.Starts ⟨n, m, .statement s⟩ → m.Nested done depths →
      s.execute n m = .ok a after → after.Nested done depths :=
    fun hstart hm ho => (Nests.of_ok (hparts _ hstart (hc.part H hstart hm hscope)) ho).1
  have hm := hc.machine
  have hstarts := h
  cases h with
  | block | functionBody => exact absurd trivial hscope
  | right ho => exact hc.part H hstarts (value .left hm ho).1 hscope
  | undecided ho => exact hc.part H hstarts (value .decider hm ho).1 hscope
  | arguments ho => exact hc.part H hstarts (value .callee hm ho).1 hscope
  | setValue ho => exact hc.part H hstarts (value .setObject hm ho).1 hscope
  | otherArguments ho => exact hc.part H hstarts (value .firstArgument hm ho).1 hscope
  | thenBranch ho | elseBranch ho => exact hc.part H hstarts (value .condition hm ho).1 hscope
  | otherStatements ho => exact hc.part H hstarts (completion .firstStatement hm ho) hscope
  | restOfProgram ho => exact hc.part H hstarts (completion .firstOfProgram hm ho) hscope
  | loopBody ho => exact hc.part H hstarts (value .loopCondition hm ho).1 hscope
  | nextRound ho ha hbody =>
    have hbefore := (value .loopCondition hm ho).1
    exact hc.part H hstarts (completion (.loopBody ho ha) hbefore hbody) hscope
  | call hcallee harguments =>
    obtain ⟨hbefore, hf⟩ := value .callee hm hcallee
    have hlist := hc.part H (.arguments hcallee) hbefore hscope
    obtain ⟨hlater, hle, hvalues⟩ := Nests.of_ok (hparts _ (.arguments hcallee) hlist) harguments
    refine hc.part H hstarts (hlater.of_eq rfl rfl rfl rfl) hscope ?_
    refine List.forall_mem_cons.2 ⟨hf.mono hle, fun value hv => ?_⟩
    exact (hvalues value hv).mono (Nat.le_refl _)
  | function => exact hc.part H hstarts hm hscope hc.operands
  | @initializer n m k arguments line object f f' bound later hobject hinit hbound =>
    obtain ⟨hclass, harguments⟩ := List.forall_mem_cons.1 hc.operands
    obtain ⟨hafter, hle, ho⟩ := (Nests.instantiate hm hclass).of_ok hobject
    have hwaits := Class.Every.findMethod? k (hclass.mono hle) hinit
    obtain ⟨hlater, hle', hf⟩ := hafter.bindMethod H hc.begun (.initializer hobject hinit) hwaits ho
      hbound
    refine hc.part H hstarts hlater hscope (List.forall_mem_cons.2 ⟨hf, fun value hv => ?_⟩)
    exact (harguments value hv).mono (Nat.le_trans hle hle')
  | _ => exact hc.part H hstarts hm hscope

end Configuration.Nested

/-! ### How tasks end -/

section Ends

variable {e : Expr} {s : Stmt}

theorem environment_of_evaluate {value : Value} (ho : e.evaluate n m = .ok value after) :
    after.environment = m.environment :=
  (((runsRestore n).evaluate e m).of_ok ho).environment

namespace Configuration.Nested

theorem ends_call {callee : Expr} {arguments : List Expr} {line : Nat}
    (hparts : PartsEnd done depths ⟨n + 1, m, .expression (.call callee arguments line)⟩) :
    Configuration.Ends done depths ⟨n + 1, m, .expression (.call callee arguments line)⟩ := by
  show Nests done depths m ((Expr.call callee arguments line).evaluate (n + 1)) _
  rw [Expr.evaluate]
  refine .bind (hparts _ .callee) fun f after hcallee _ _ _ => ?_
  refine .bind (hparts _ (.arguments hcallee)) fun values later harguments hl _ _ => ?_
  cases harity : f.arity? with
  | none => exact .raise hl _ _
  | some arity =>
    simp only
    split
    · next hlength =>
      refine .asCall hl (fun hdepth => ?_) fun a s t hle ha => ha.mono hle
      exact hparts _ (.call hcallee harguments (harity.trans (congrArg some hlength.symm)) hdepth)
    · exact .raise hl _ _

theorem ends_expression (H : Charted done)
    (hc : Configuration.Nested done depths ⟨n + 1, m, .expression e⟩)
    (hparts : PartsEnd done depths ⟨n + 1, m, .expression e⟩) :
    Configuration.Ends done depths ⟨n + 1, m, .expression e⟩ := by
  have hm := hc.machine
  obtain ⟨names, henv, hp⟩ := hc.placed
  show Nests done depths m (e.evaluate (n + 1)) fun value after => value.Nested done depths after
  cases e with
  | literal value => exact .pure hm (Value.isPlain_ofLiteral value).nested
  | grouping inner => exact hparts _ .inner
  | unary operator operand line =>
    rw [Expr.evaluate]
    refine .bind (hparts _ .operand) fun a after _ hafter _ _ => ?_
    exact .located hafter fun _ hr => (UnaryOperator.isPlain_apply hr).nested
  | binary left operator right line =>
    rw [Expr.evaluate]
    refine .bind (hparts _ .left) fun a after ho _ _ _ => ?_
    refine .bind (hparts _ (.right ho)) fun b later _ hl _ _ => ?_
    exact .located hl fun _ hr => (BinaryOperator.isPlain_apply hr).nested
  | logical left operator right =>
    rw [Expr.evaluate]
    refine .bind (hparts _ .decider) fun a after ho hafter ha _ => ?_
    split
    · exact .pure hafter ha
    · next hd => exact hparts _ (.undecided ho (Bool.eq_false_iff.2 hd))
  | reference target => exact .valueOf hm _ _ _
  | assign target value =>
    rw [Expr.evaluate]
    refine .bind (hparts _ .assigned) fun a after ho hafter ha _ => ?_
    have henv' : after.environment.Nested done .code names := by
      rw [environment_of_evaluate ho]
      exact henv
    exact .bind (.assign H hafter henv' hp.1 hp.2.1 ha) fun _ later _ hl ha _ => .pure hl ha
  | call callee arguments line => exact ends_call hparts
  | get object name =>
    rw [Expr.evaluate]
    refine .bind (hparts _ .getObject) fun found after ho hafter hfound _ => ?_
    cases found with
    | ofInstance object =>
      apply Nests.property H hafter hc.begun hfound
      intro method hfield hmethod
      exact .property ho hfield hmethod
    | _ => exact .raise hafter _ _
  | set object name value =>
    rw [Expr.evaluate]
    refine .bind (hparts _ .setObject) fun found after ho hafter _ _ => ?_
    cases found with
    | ofInstance object =>
      refine .bind (hparts _ (.setValue ho)) fun a later _ hl ha _ => ?_
      exact .bind (.setField hl object name.text ha) fun _ last _ hlast ha _ => .pure hlast ha
    | _ => exact .raise hafter _ _
  | this id line => exact .valueOf hm _ _ _
  | super id line method => exact .superMethod H hm hc.begun

theorem ends_arguments {es : List Expr}
    (hc : Configuration.Nested done depths ⟨n + 1, m, .arguments es⟩)
    (hparts : PartsEnd done depths ⟨n + 1, m, .arguments es⟩) :
    Configuration.Ends done depths ⟨n + 1, m, .arguments es⟩ := by
  show Nests done depths m (evaluateAll (n + 1) es) _
  cases es with
  | nil => exact .pure hc.machine nofun
  | cons e rest =>
    rw [evaluateAll]
    refine .bind (hparts _ .firstArgument) fun a after ho _ ha _ => ?_
    refine .bind (hparts _ (.otherArguments ho)) fun values later _ hl hvalues hle => ?_
    exact .pure hl (List.forall_mem_cons.2 ⟨ha.mono hle, hvalues⟩)

theorem ends_application (H : Charted done) {callee : Value} {arguments : List Value} {line : Nat}
    (hc : Configuration.Nested done depths ⟨n + 1, m, .application callee arguments line⟩)
    (hparts : PartsEnd done depths ⟨n + 1, m, .application callee arguments line⟩) :
    Configuration.Ends done depths ⟨n + 1, m, .application callee arguments line⟩ := by
  obtain ⟨hcallee, harguments⟩ := List.forall_mem_cons.1 hc.operands
  show Nests done depths m (callee.apply (n + 1) arguments line) fun value after =>
    value.Nested done depths after
  cases callee with
  | native f =>
    rw [Value.apply]
    exact .callHost hc.machine f line harguments
  | function f => exact hparts _ .function
  | ofClass k =>
    rw [Value.apply]
    refine .bind (.instantiate hc.machine hcallee) fun object after hobject hafter ho hle => ?_
    cases hinit : k.initializer? with
    | none => exact .pure hafter ho
    | some f =>
      have hwaits := Class.Every.findMethod? k (hcallee.mono hle) hinit
      refine .bind (.bindMethod H hafter hc.begun (.initializer hobject hinit) hwaits ho)
        fun bound later hbound _ _ hle => ?_
      refine .bind (hparts _ (.initializer hobject hinit hbound)) fun _ last _ hlast _ hle' => ?_
      exact .pure hlast (ho.mono (Nat.le_trans hle hle'))
  | _ => exact .raise hc.machine _ _

/-- Code in a scope of its own, after which the environment is as it was. -/
theorem inNewScope {body : List Stmt} {env : Environment} {bindings : Table Value}
    {x : Run Completion}
    (hx : x m = afterwards (fun after => { after with environment := m.environment })
      (executeAll n body)
      { m with store := m.store.push bindings, environment := env.inner m.store.size })
    (hbody : Configuration.Ends done depths
      ⟨n, { m with store := m.store.push bindings, environment := env.inner m.store.size },
        .statements body⟩) :
    Nests done depths m x fun completion after => completion.Nested done depths after := by
  refine .of_afterwards hx hbody (Nat.le_of_lt (Store.size_lt_push ..)) ?_ (fun _ => rfl) ?_
  · intro later hlater
    exact hlater.of_eq rfl rfl rfl rfl
  · intro completion later hcompletion value hv
    exact (hcompletion value hv).mono (Nat.le_refl _)

theorem ends_entry {f : Function} {arguments : List Value} {line : Nat}
    (hparts : PartsEnd done depths ⟨n + 1, m, .entry f arguments line⟩) :
    Configuration.Ends done depths ⟨n + 1, m, .entry f arguments line⟩ := by
  show Nests done depths m (f.enter (n + 1) arguments line) _
  rw [Function.enter_succ]
  refine .bind (inNewScope rfl (hparts _ (.functionBody rfl))) ?_
  intro completion after _ hafter hcompletion _
  exact .callResult hafter f line hcompletion

/-! ### Statements -/

theorem ends_initialValue {value : Option Expr} (hm : m.Nested done depths)
    (he : ∀ e ∈ value, Configuration.Ends done depths ⟨n, m, .expression e⟩) :
    Nests done depths m (initialValue n value) fun value after =>
      value.Nested done depths after := by
  cases value with
  | none => exact .pure hm trivial
  | some e => exact he e rfl

theorem environment_of_initialValue {initial : Option Expr} {value : Value}
    (ho : initialValue n initial m = .ok value after) : after.environment = m.environment := by
  cases initial with
  | none =>
    cases ho
    rfl
  | some e => exact environment_of_evaluate ho

theorem ends_classDef (H : Charted done) {name : Identifier} {target : Option Reference}
    {methods : List FunctionDef}
    (hc : Configuration.Nested done depths ⟨n + 1, m, .statement (.classDef name target methods)⟩) :
    Configuration.Ends done depths ⟨n + 1, m, .statement (.classDef name target methods)⟩ := by
  obtain ⟨names, henv, hp⟩ := hc.placed
  have hnests := Nests.superclass? hc.machine target
  show Nests done depths m ((Stmt.classDef name target methods).execute (n + 1)) _
  unfold Nests at hnests ⊢
  cases hsuper : Run.superclass? target m with
  | ok superclass after =>
    obtain rfl := Run.superclass?_ok hsuper
    rw [Stmt.execute_classDef_of_ok hsuper]
    exact ⟨hc.machine.withClass H hc.begun henv hc.within hp hsuper, Completion.nested_normal⟩
  | error e after =>
    rw [hsuper] at hnests
    rw [Stmt.execute_classDef, bind_apply_of_error hsuper]
    exact hnests
  | exhausted =>
    rw [Stmt.execute_classDef, bind_apply_of_exhausted hsuper]
    trivial

theorem ends_function (H : Charted done) {declaration : FunctionDef}
    (hc : Configuration.Nested done depths ⟨n + 1, m, .statement (.function declaration)⟩) :
    Configuration.Ends done depths ⟨n + 1, m, .statement (.function declaration)⟩ := by
  obtain ⟨names, henv, hp⟩ := hc.placed
  have hf : Value.Nested done depths m
      (.function ⟨m.nextIdentity, declaration, m.environment, false⟩) :=
    ⟨.inl ⟨rfl, n, m, hc.begun, rfl, rfl⟩, hc.within, _, _, henv.declare declaration.name.text,
      hp.2.2⟩
  have hbound := hc.machine.put (henv.writable H) declaration.name.text hf
  exact ⟨⟨hbound.of_eq rfl rfl rfl rfl, Nat.le_of_eq (Store.size_put ..).symm⟩,
    Completion.nested_normal⟩

theorem ends_statement (H : Charted done)
    (hc : Configuration.Nested done depths ⟨n + 1, m, .statement s⟩)
    (hparts : PartsEnd done depths ⟨n + 1, m, .statement s⟩) :
    Configuration.Ends done depths ⟨n + 1, m, .statement s⟩ := by
  have hm := hc.machine
  show Nests done depths m (s.execute (n + 1)) fun completion after =>
    completion.Nested done depths after
  cases s with
  | expression value =>
    rw [Stmt.execute]
    exact .bind (hparts _ .expression) fun _ after _ hafter _ _ =>
      .pure hafter Completion.nested_normal
  | print value =>
    rw [Stmt.execute]
    refine .bind (hparts _ .printed) fun a after _ hafter _ _ => ?_
    refine .bind (.write hafter _ _) fun _ later _ hl _ _ => ?_
    refine .bind (.write hl _ _) fun _ last _ hlast _ _ => ?_
    exact .pure hlast Completion.nested_normal
  | var name initial =>
    obtain ⟨names, henv, -⟩ := hc.placed
    rw [Stmt.execute_var]
    refine .bind (ends_initialValue hm ?_) fun value after ho hafter hv _ => ?_
    · rintro e rfl
      exact hparts _ .initial
    · have henv' : after.environment.Nested done .code names := by
        rw [environment_of_initialValue ho]
        exact henv
      exact .bind (.define H hafter henv' name.text hv) fun _ later _ hl _ _ =>
        .pure hl Completion.nested_normal
  | block body =>
    rw [Stmt.execute]
    exact inNewScope rfl (hparts _ (.block rfl))
  | conditional condition thenBranch elseBranch =>
    rw [Stmt.execute_conditional]
    refine .bind (hparts _ .condition) fun a after ho hafter _ _ => ?_
    split
    · next ha => exact hparts _ (.thenBranch ho ha)
    · next ha =>
      cases elseBranch with
      | none => exact .pure hafter Completion.nested_normal
      | some elseBranch => exact hparts _ (.elseBranch ho (Bool.eq_false_iff.2 ha))
  | whileLoop condition body =>
    rw [Stmt.execute]
    exact hparts _ .whileLoop
  | function declaration => exact ends_function H hc
  | ret line value =>
    rw [Stmt.execute_ret]
    refine .bind (ends_initialValue hm ?_) fun a after _ hafter ha _ => ?_
    · rintro e rfl
      exact hparts _ .result
    · exact .pure hafter (List.forall_mem_singleton.2 ha)
  | classDef name target methods => exact ends_classDef H hc

theorem ends_statements {body : List Stmt}
    (hc : Configuration.Nested done depths ⟨n + 1, m, .statements body⟩)
    (hparts : PartsEnd done depths ⟨n + 1, m, .statements body⟩) :
    Configuration.Ends done depths ⟨n + 1, m, .statements body⟩ := by
  show Nests done depths m (executeAll (n + 1) body) _
  cases body with
  | nil => exact .pure hc.machine Completion.nested_normal
  | cons s rest =>
    rw [executeAll]
    refine .bind (hparts _ .firstStatement) fun completion after ho hafter hcompletion _ => ?_
    cases completion with
    | returned value => exact .pure hafter hcompletion
    | normal => exact hparts _ (.otherStatements ho)

theorem ends_loop {condition : Expr} {body : Stmt}
    (hparts : PartsEnd done depths ⟨n + 1, m, .loop condition body⟩) :
    Configuration.Ends done depths ⟨n + 1, m, .loop condition body⟩ := by
  show Nests done depths m (repeatWhile (n + 1) condition body) _
  rw [repeatWhile]
  refine .bind (hparts _ .loopCondition) fun a after ho hafter _ _ => ?_
  split
  · next ha =>
    refine .bind (hparts _ (.loopBody ho ha)) fun completion later hbody hl hcompletion _ => ?_
    cases completion with
    | returned value => exact .pure hl hcompletion
    | normal => exact hparts _ (.nextRound ho ha hbody)
  · exact .pure hafter Completion.nested_normal

theorem ends_program {body : List Stmt}
    (hc : Configuration.Nested done depths ⟨n, m, .program body⟩)
    (hparts : PartsEnd done depths ⟨n, m, .program body⟩) :
    Configuration.Ends done depths ⟨n, m, .program body⟩ := by
  show Nests done depths m (runProgram n body) _
  cases body with
  | nil => exact .pure hc.machine trivial
  | cons s rest =>
    rw [runProgram]
    refine .bind (hparts _ .firstOfProgram) fun completion after ho _ _ _ => ?_
    exact hparts _ (.restOfProgram ho)

/-- Every nested task ends among nested values, if it ends. -/
theorem ends (H : Charted done) (hc : c.Nested done depths) : c.Ends done depths := by
  induction c using Configuration.induction with
  | h c ih =>
    have hparts : c.PartsEnd done depths := fun d hstarts =>
      ih d hstarts (hc.starts H (fun e hstarts he => ih e hstarts he) hstarts)
    obtain ⟨n, m, task⟩ := c
    match n, task with
    | 0, .expression _ | 0, .arguments _ | 0, .application _ _ _ | 0, .entry _ _ _ | 0, .statement _
    | 0, .statements _ | 0, .loop _ _ => trivial
    | n + 1, .expression e => exact ends_expression H hc hparts
    | n + 1, .arguments es => exact ends_arguments hc hparts
    | n + 1, .application callee arguments line => exact ends_application H hc hparts
    | n + 1, .entry f arguments line => exact ends_entry hparts
    | n + 1, .statement s => exact ends_statement H hc hparts
    | n + 1, .statements body => exact ends_statements hc hparts
    | n + 1, .loop condition body => exact ends_loop hparts
    | n, .program body => exact ends_program hc hparts

/-- All tasks that a nested task comes to are nested. -/
theorem reaches (H : Charted done) (hc : c.Nested done depths) (h : c.Reaches d) :
    d.Nested done depths := by
  induction h with
  | refl => exact hc
  | tail _ hstep ih => exact ih.starts H (fun _ _ he => he.ends H) hstep

/-- Whatever a nested task leaves behind is nested. -/
theorem of_after? (H : Charted done) (hc : c.Nested done depths) (h : c.after? = some after) :
    after.Nested done depths := by
  have hends := hc.ends H
  obtain ⟨n, m, task⟩ := c
  cases task <;> exact Nests.of_state hends h

/-- What a nested task ends with is nested. -/
theorem results (H : Charted done) (hc : c.Nested done depths) (hafter : c.after? = some after) :
    ∀ value ∈ c.results, value.Nested done depths after := by
  intro value hv
  have hends := hc.ends H
  obtain ⟨n, m, task⟩ := c
  cases task with
  | expression | application | entry =>
    obtain ⟨a, ha, hv⟩ := Nests.of_mem_next hends hafter hv
    exact List.mem_singleton.1 hv ▸ ha
  | arguments es =>
    obtain ⟨values, hvalues, hv⟩ := Nests.of_mem_next (g := id) hends hafter hv
    exact hvalues value hv
  | statement | statements | loop =>
    obtain ⟨completion, hcompletion, hv⟩ := Nests.of_mem_next hends hafter hv
    exact hcompletion value hv
  | program => cases hv

/-- The scope of a method lies before the one that is made for its instance. -/
theorem within_of_binds (H : Charted done) (hc : c.Nested done depths) {method : Function}
    {object : Instance} (h : c.Binds m method object) : method.closure.Within m.store.size := by
  cases h with
  | property hobject _ hmethod =>
    have hpart := hc.starts H (fun _ _ he => he.ends H) .getObject
    obtain ⟨-, -, hfound⟩ := Nests.of_ok (hpart.ends H) hobject
    exact (Class.Every.findMethod? object.ofClass hfound hmethod).within
  | superMethod _ hsuper _ hmethod =>
    have hclass := Nests.nested_of_getAt? hc.machine hsuper
    exact (Class.Every.findMethod? _ hclass hmethod).within
  | @initializer _ _ k _ _ _ _ _ hobject hmethod =>
    obtain ⟨hclass, -⟩ := List.forall_mem_cons.1 hc.operands
    obtain ⟨-, hle, -⟩ := (Nests.instantiate hc.machine hclass).of_ok hobject
    exact (Class.Every.findMethod? k (hclass.mono hle) hmethod).within

/-- A scope is opened behind all that is around it. -/
theorem within_of_opens (H : Charted done) (hc : c.Nested done depths) {o : Opening}
    (h : c.Opens o) : o.outside.Within o.place := by
  cases h with
  | block | derived => exact hc.within
  | entry =>
    obtain ⟨hf, -⟩ := List.forall_mem_cons.1 hc.operands
    exact Function.Nested.within hf
  | bound hbinds => exact hc.within_of_binds H hbinds

end Configuration.Nested

end Ends

/-! ### Events -/

section Events

variable (done) (depths)

/-- The machine at the event is nested, and so are its environment and all values there. -/
structure Event.Nested (x : Event) : Prop where
  machine : x.machine.Nested done depths
  within : x.machine.environment.Within x.machine.store.size
  environment : ∃ names, x.machine.environment.Nested done .code names
  values : ∀ value, x.Has value → value.Nested done depths x.machine

end Events

/-- The beginning of a nested task. -/
theorem Configuration.Nested.event_begins (hc : c.Nested done depths) :
    (Event.begins c).Nested done depths := by
  obtain ⟨names, henv, -⟩ := hc.placed
  refine ⟨hc.machine, hc.within, ⟨names, henv⟩, fun value hv => ?_⟩
  cases hv with
  | stored h => exact hc.machine.store _ _ value h
  | field h => exact hc.machine.fields _ _ value h
  | given h => exact hc.operands value h

/-- Its end. The environment is the one before, and no scope has gone away. -/
theorem Configuration.Nested.event_ends (H : Charted done) (hc : c.Nested done depths)
    (hafter : c.after? = some after) : (Event.ends c after).Nested done depths := by
  have hm : after.Nested done depths := hc.of_after? H hafter
  have henv : after.environment = c.machine.environment :=
    (c.endsIn_restored after hafter).environment
  have hends : .ends c after ∈ c.trace := ends_mem_trace_iff.2 ⟨.refl, hafter⟩
  have hgrows : c.machine.Grows after := (H.under c hc.begun).traced.path.grows hends
  obtain ⟨names, hnested, -⟩ := hc.placed
  refine ⟨hm, ?_, ⟨names, ?_⟩, fun value hv => ?_⟩
  · show after.environment.Within after.store.size
    rw [henv]
    exact hc.within.mono hgrows.store.size
  · show after.environment.Nested done .code names
    rw [henv]
    exact hnested
  · cases hv with
    | stored h => exact hm.store _ _ value h
    | field h => exact hm.fields _ _ value h
    | result h => exact hc.results H hafter value h

/-- All events of a nested task are nested. -/
theorem Event.nested_of_mem (H : Charted done) (hc : c.Nested done depths) {x : Event}
    (hx : x ∈ c.trace) : x.Nested done depths := by
  obtain ⟨d, hreaches, hx⟩ := Configuration.mem_trace_iff.1 hx
  have hd := hc.reaches H hreaches
  rcases List.mem_cons.1 hx with rfl | hx
  · exact hd.event_begins
  · obtain ⟨after, hafter, rfl⟩ := Option.mem_map.1 (Option.mem_toList.1 hx)
    exact hd.event_ends H hafter

end Lox
