import Lox.Proofs.Resolution.Rules
import Lox.Proofs.Resolution.Likeness
import Lox.Proofs.Session.Preparation

/-!
# What resolution reports

Resolution reports exactly the sites that break a rule, each once. The two contexts and the innermost
scope say at every moment what the surroundings of a site say, and so a part of the walk adds the
diagnostics of the sites of the tree that it visits.
-/

namespace Lox

/-- The context that a function is visited in. -/
def FunctionRole.context (role : FunctionRole) (name : Identifier) : FunctionContext :=
  match role with
  | .function => .function
  | .method => Resolution.methodContext name

/-- The context that resolution is in. -/
def Surroundings.functionContext (around : Surroundings) : FunctionContext :=
  match around.function? with
  | none => .outside
  | some (_, .function) => .function
  | some (name, .method) => if name = initializerName then .initializer else .method

def Surroundings.classContext (around : Surroundings) : ClassContext :=
  match around.class? with
  | none => .outside
  | some false => .base
  | some true => .derived

namespace Resolution

/-- The walk from `r` to `s` reports what these sites break. -/
def Reports (r s : Resolution) (sites : List Site) : Prop :=
  s.faults = (sites.flatMap Site.violations).reverse ++ r.faults

namespace Reports

variable {r s t : Resolution} {sites others : List Site}

theorem same (h : s.faults = r.faults) : Reports r s [] := h

theorem trans (h : Reports r s sites) (k : Reports s t others) : Reports r t (sites ++ others) := by
  unfold Reports at h k ⊢
  rw [k, h, List.flatMap_append, List.reverse_append, List.append_assoc]

/-- One site that is visited. -/
theorem site {site : Site} (h : s.faults =
    match site.fault? with
    | some rule => ⟨.scoping rule, site.line⟩ :: r.faults
    | none => r.faults) : Reports r s [site] := by
  unfold Reports
  rw [List.flatMap_singleton, Site.violations_eq, h]
  cases site.fault? <;> rfl

/-- Nothing is reported afterwards. -/
theorem before (h : Reports r s sites) (k : t.faults = s.faults) : Reports r t sites :=
  k.trans h

end Reports

/-- What an expression is checked against is seen from its surroundings. -/
structure Sees (r : Resolution) (around : Surroundings) : Prop where
  initialized (name : String) : r.isInitializing name = true ↔ around.initialized? = some name
  functionContext : r.functionContext = around.functionContext
  classContext : r.classContext = around.classContext

theorem Unmoved.sees {r s : Resolution} {around : Surroundings} (h : Unmoved r s)
    (hr : r.Sees around) : s.Sees around where
  initialized name := by rw [h.isInitializing, hr.initialized]
  functionContext := h.functionContext.trans hr.functionContext
  classContext := h.classContext.trans hr.classContext

theorem faults_locate (r : Resolution) (id : NodeId) (name : String) :
    (r.locate id name).faults = r.faults := by
  unfold locate
  split <;> rfl

variable {r : Resolution} {around : Surroundings}

theorem reference_reports
    (h : ∀ name, r.isInitializing name = true ↔ around.initialized? = some name)
    (target : Reference) :
    Reports r (r.reference target) [⟨.read target.name.text, target.name.line, around⟩] := by
  refine .site ?_
  simp only [reference, faults_locate, Site.fault?, h]
  split <;> rfl

mutual

theorem expr_reports {r : Resolution} (h : r.Sees around) (e : Expr) :
    Reports r (r.expr e) (e.sites around) := by
  cases e with
  | literal => exact .same rfl
  | unary _ operand => exact expr_reports h operand
  | binary left _ right | logical left _ right =>
    exact (expr_reports h left).trans (expr_reports ((unmoved_expr r left).sees h) right)
  | grouping inner => exact expr_reports h inner
  | reference target => exact reference_reports h.initialized target
  | assign target value => exact (expr_reports h value).before (faults_locate ..)
  | call callee arguments =>
    exact (expr_reports h callee).trans
      (exprs_reports ((unmoved_expr r callee).sees h) arguments)
  | get object => exact expr_reports h object
  | set object _ value =>
    exact (expr_reports h value).trans (expr_reports ((unmoved_expr r value).sees h) object)
  | this id line =>
    refine .site ?_
    simp only [expr, Site.fault?, h.classContext, Surroundings.classContext]
    rcases around.class? with _ | _ | _ <;> first | rfl | exact faults_locate ..
  | super id line =>
    refine .site ?_
    simp only [expr, Site.fault?, h.classContext, Surroundings.classContext]
    rcases around.class? with _ | _ | _ <;> first | rfl | exact faults_locate ..

theorem exprs_reports {r : Resolution} (h : r.Sees around) (es : List Expr) :
    Reports r (r.exprs es) (Expr.sitesAll around es) := by
  cases es with
  | nil => exact .same rfl
  | cons e rest =>
    exact (expr_reports h e).trans (exprs_reports ((unmoved_expr r e).sees h) rest)

end

theorem expr?_reports (h : r.Sees around) (value : Option Expr) :
    Reports r (r.expr? value) (Expr.sites? around value) := by
  cases value with
  | none => exact .same rfl
  | some e => exact expr_reports h e

/-! ### Declarations -/

end Resolution

theorem Surroundings.after_eq_self {around : Surroundings} {s : Stmt} (h : s.declared? = none) :
    around.after s = around := by
  rw [Surroundings.after, h]

/-- The surroundings of a statement, and the names of the scopes around it. -/
inductive Surroundings.HasScope : Surroundings → ScopeNames → Prop where
  | outside : HasScope [] []
  | inside {earlier outer names} : HasScope (.scope earlier :: outer) (earlier :: names)

namespace Surroundings.HasScope

variable {around : Surroundings} {names : ScopeNames}

theorem declare (h : around.HasScope names) (name : String) :
    (around.declare name).HasScope (names.declare name) := by
  cases h with
  | outside => exact .outside
  | inside => exact .inside

theorem after (h : around.HasScope names) (s : Stmt) : (around.after s).HasScope (names.after s) := by
  unfold Surroundings.after ScopeNames.after
  cases s.declared? with
  | none => exact h
  | some name => exact h.declare name

theorem initialized? (h : around.HasScope names) : around.initialized? = none := by
  cases h <;> rfl

theorem functionContext_declare (h : around.HasScope names) (name : String) :
    (around.declare name).functionContext = around.functionContext := by
  cases h <;> rfl

theorem classContext_declare (h : around.HasScope names) (name : String) :
    (around.declare name).classContext = around.classContext := by
  cases h <;> rfl

theorem functionContext_after (h : around.HasScope names) (s : Stmt) :
    (around.after s).functionContext = around.functionContext := by
  unfold Surroundings.after
  cases s.declared? with
  | none => rfl
  | some name => exact h.functionContext_declare name

theorem classContext_after (h : around.HasScope names) (s : Stmt) :
    (around.after s).classContext = around.classContext := by
  unfold Surroundings.after
  cases s.declared? with
  | none => rfl
  | some name => exact h.classContext_declare name

end Surroundings.HasScope

namespace Resolution

/-- The walk stands before a statement with these surroundings. -/
structure Stands (r : Resolution) (around : Surroundings) (names : ScopeNames) : Prop where
  scopes : r.Around names
  settled : r.Settled
  hasScope : around.HasScope names
  functionContext : r.functionContext = around.functionContext
  classContext : r.classContext = around.classContext

variable {r s : Resolution} {around : Surroundings} {names : ScopeNames}

theorem isInitializing_eq_false (h : r.Settled) (name : String) : r.isInitializing name = false := by
  unfold isInitializing
  unfold Settled at h
  cases hr : r.scopes with
  | nil => rfl
  | cons table outer =>
    rw [hr, List.forall_mem_cons] at h
    simpa using h.1 name

/-- The names of the innermost table are the names declared earlier. -/
theorem Stands.declares_iff (h : r.Stands around names) (name : String) :
    r.declares name = true ↔ name ∈ around.earlier := by
  have hscopes := h.scopes.scopes
  unfold declares
  cases h.hasScope with
  | outside =>
    rw [List.forall₂_nil_right_iff.1 hscopes]
    exact iff_of_false nofun nofun
  | inside =>
    obtain ⟨table, outer, hnames, -, hr⟩ := List.forall₂_cons_right_iff.1 hscopes
    rw [hr]
    exact hnames name

theorem Stands.sees (h : r.Stands around names) : r.Sees around where
  initialized name := by
    rw [isInitializing_eq_false h.settled, h.hasScope.initialized?]
    exact iff_of_false nofun nofun
  functionContext := h.functionContext
  classContext := h.classContext

theorem Stands.passed (h : r.Stands around names) {s : Resolution} {other : Surroundings}
    {inner : ScopeNames} (hpassed : Passed r s inner) (hscope : other.HasScope inner)
    (hfunction : other.functionContext = around.functionContext)
    (hclass : other.classContext = around.classContext) : s.Stands other inner where
  scopes := hpassed.around
  settled := hpassed.settled
  hasScope := hscope
  functionContext := hpassed.functionContext.trans (h.functionContext.trans hfunction.symm)
  classContext := hpassed.classContext.trans (h.classContext.trans hclass.symm)

theorem Stands.unmoved (h : r.Stands around names) (k : Unmoved r s) : s.Stands around names :=
  h.passed (k.passed h.scopes h.settled) h.hasScope rfl rfl

theorem Stands.introduce (h : r.Stands around names) {name : Identifier}
    (ho : OrdinaryName name.text) :
    ((r.declare name).define name).Stands (around.declare name.text) (names.declare name.text) :=
  h.passed (introduce_passed h.scopes h.settled ho) (h.hasScope.declare _)
    (h.hasScope.functionContext_declare _) (h.hasScope.classContext_declare _)

theorem Stands.stmt (h : r.Stands around names) (s : Stmt) (ho : s.Ordinary) :
    (r.stmt s).Stands (around.after s) (names.after s) :=
  h.passed (stmt_visited h.scopes h.settled s ho).1 (h.hasScope.after s)
    (h.hasScope.functionContext_after s) (h.hasScope.classContext_after s)

theorem faults_mark (r : Resolution) (name : String) (isDefined : Bool) :
    (r.mark name isDefined).faults = r.faults := by
  unfold mark
  split <;> rfl

theorem declare_reports (h : r.Stands around names) (name : Identifier) :
    Reports r (r.declare name) [⟨.declare name.text, name.line, around⟩] := by
  refine .site ?_
  simp only [declare, Site.fault?, h.declares_iff]
  split
  · exact congrArg _ (faults_mark ..)
  · exact faults_mark ..

theorem introduce_reports (h : r.Stands around names) (name : Identifier) :
    Reports r ((r.declare name).define name) [⟨.declare name.text, name.line, around⟩] :=
  (declare_reports h name).before (faults_mark ..)

/-- While the initial value of a variable is visited, this variable alone is being declared. -/
theorem Stands.initial (h : r.Stands around names) (name : Identifier) :
    (r.declare name).Sees (.initial name.text :: around) where
  initialized other := by
    have hscopes := h.scopes.scopes
    have hsettled := h.settled
    unfold isInitializing
    unfold Settled at hsettled
    rw [scopes_declare]
    cases h.hasScope with
    | outside =>
      rw [List.forall₂_nil_right_iff.1 hscopes]
      exact iff_of_false nofun nofun
    | inside =>
      obtain ⟨table, outer, -, -, hr⟩ := List.forall₂_cons_right_iff.1 hscopes
      rw [hr, List.forall_mem_cons] at hsettled
      rw [hr]
      by_cases hname : name.text = other
      · simp [Surroundings.initialized?, hname]
      · have hget := hsettled.1 other
        simp [Surroundings.initialized?, hname, Table.get?_insert_of_ne _ _ (Ne.symm hname), hget]
  functionContext := (contexts_declare r name).1.trans h.functionContext
  classContext := (contexts_declare r name).2.trans h.classContext

theorem parameters_reports (params : List Identifier)
    (ho : ∀ param ∈ params, OrdinaryName param.text) {r : Resolution} {earlier : List String}
    {outer : Surroundings} {names : ScopeNames}
    (h : r.Stands (.scope earlier :: outer) (earlier :: names)) :
    Reports r (r.parameters params) (Identifier.sites (.scope earlier :: outer) params) := by
  induction params generalizing r earlier with
  | nil => exact .same rfl
  | cons param rest ih =>
    rw [List.forall_mem_cons] at ho
    exact (introduce_reports h param).trans (ih ho.2 (h.introduce ho.1))

/-! ### Statements -/

theorem checkReturn_reports (h : r.Sees around) (line : Nat) (hasValue : Bool) :
    Reports r (r.checkReturn line hasValue) [⟨.ret hasValue, line, around⟩] := by
  refine .site ?_
  simp only [checkReturn, Site.fault?, report, h.functionContext, Surroundings.functionContext]
  rcases around.function? with _ | ⟨name, _ | _⟩
  · simp
  · simp
  · by_cases hname : name = initializerName <;> cases hasValue <;> simp [hname]

theorem superclass_reports (h : r.Settled) (hscope : around.HasScope names) (name : Identifier)
    (superclass : Option Reference) :
    Reports r (r.superclass name superclass) (Reference.sites? around name.text superclass) := by
  cases superclass with
  | none => exact .same rfl
  | some target =>
    have hchecked : Reports r (r.inheriting name target)
        [⟨.inherit name.text target.name.text, target.name.line, around⟩] := by
      refine .site ?_
      simp only [inheriting, Site.fault?]
      split <;> rfl
    have hsettled : (r.inheriting name target).Settled := by
      unfold Settled
      rw [inheriting_scopes]
      exact h
    have hinitializing : ∀ other, (r.inheriting name target).isInitializing other = true ↔
        around.initialized? = some other := fun other => by
      rw [isInitializing_eq_false hsettled, hscope.initialized?]
      exact iff_of_false nofun nofun
    exact (hchecked.trans (reference_reports hinitializing target)).before rfl

mutual

/-- A statement reports what its sites break. -/
theorem stmt_reports {r : Resolution} {around : Surroundings} {names : ScopeNames}
    (h : r.Stands around names) (s : Stmt) (ho : s.Ordinary) :
    Reports r (r.stmt s) (s.sites around) := by
  match s with
  | .expression value | .print value => exact expr_reports h.sees value
  | .var name initial =>
    exact ((declare_reports h name).trans (expr?_reports (h.initial name) initial)).before
      (faults_mark ..)
  | .block body =>
    have hwithin : r.classContext.Within ([] :: names) := h.scopes.classContext.cons nofun
    exact stmts_reports ⟨opened_around h.scopes hwithin, opened_settled h.settled [], .inside,
      h.functionContext, h.classContext⟩ body ho
  | .conditional condition thenBranch none =>
    have hcondition := h.unmoved (unmoved_expr r condition)
    exact (expr_reports h.sees condition).trans (stmt_reports hcondition thenBranch ho.2.2)
  | .conditional condition thenBranch (some elseBranch) =>
    have hcondition := h.unmoved (unmoved_expr r condition)
    have hthen := hcondition.stmt thenBranch ho.2.1.2
    rw [Surroundings.after_eq_self ho.2.1.1, after_eq_self ho.2.1.1] at hthen
    exact ((expr_reports h.sees condition).trans (stmt_reports hcondition thenBranch ho.2.1.2)).trans
      (stmt_reports hthen elseBranch ho.2.2.2)
  | .whileLoop condition body =>
    have hcondition := h.unmoved (unmoved_expr r condition)
    exact (expr_reports h.sees condition).trans (stmt_reports hcondition body ho.2.2)
  | .function declaration =>
    have hinside := h.introduce (Stmt.OrdinaryFunction.ordinaryName ho)
    exact (introduce_reports h declaration.name).trans
      (function_reports hinside.scopes hinside.settled hinside.classContext .function declaration ho)
  | .ret line value =>
    exact (checkReturn_reports h.sees line value.isSome).trans
      (expr?_reports ((unmoved_checkReturn r line value.isSome).sees h.sees) value)
  | .classDef name superclass methods =>
    have hinside := h.introduce ho.1
    have hscopes : ScopesHave (r.inClass name).scopes (names.declare name.text) := hinside.scopes.scopes
    have hsettled : (r.inClass name).Settled := hinside.settled
    have hsuperclass := superclass_reports hsettled hinside.hasScope name superclass
    have hmethods : Reports ((r.inClass name).superclass name superclass)
        (r.stmt (.classDef name superclass methods))
        (Stmt.methodSites (.classBody superclass.isSome :: around.declare name.text) methods) := by
      cases superclass with
      | none =>
        obtain ⟨hthis, hsettled⟩ := base_opened hscopes hinside.settled
        exact methods_reports hthis hsettled rfl methods ho.2
      | some target =>
        obtain ⟨hthis, hsettled⟩ := derived_opened hscopes hinside.settled name target
        have hclass : (((r.inClass name).superclass name (some target)).opened ["this"]).classContext =
            Surroundings.classContext (.classBody true :: around.declare name.text) :=
          (superclass_frame (r.inClass name) name target).2.2
        exact methods_reports hthis hsettled hclass methods ho.2
    exact (introduce_reports h name).trans (hsuperclass.trans hmethods)

theorem stmts_reports {r : Resolution} {around : Surroundings} {names : ScopeNames}
    (h : r.Stands around names) (body : List Stmt) (ho : Stmt.OrdinaryAll body) :
    Reports r (r.stmts body) (Stmt.sitesAll around body) := by
  match body with
  | [] => exact .same rfl
  | s :: rest => exact (stmt_reports h s ho.1).trans (stmts_reports (h.stmt s ho.1) rest ho.2)

theorem function_reports {r : Resolution} {around : Surroundings} {names : ScopeNames}
    (h : r.Around names) (hs : r.Settled) (hc : r.classContext = around.classContext)
    (role : FunctionRole) (declaration : FunctionDef) (ho : Stmt.OrdinaryFunction declaration) :
    Reports r (r.function (role.context declaration.name) declaration)
      (Stmt.functionSites role around declaration) := by
  match declaration with
  | ⟨name, params, body⟩ =>
    let inside : Resolution := { r with functionContext := role.context name }
    have hwithin : inside.classContext.Within ([] :: names) := h.classContext.cons nofun
    have hopened : (inside.opened []).Stands (.scope [] :: .function name.text role :: around)
        ([] :: names) :=
      ⟨⟨h.scopes.opened [], hwithin⟩, opened_settled hs [], .inside, by cases role <;> rfl, hc⟩
    have hpassed := (parameters_visited params ho.2.1 hopened.scopes hopened.settled).1
    rw [List.append_nil] at hpassed
    have hbody : ((inside.opened []).parameters params).Stands
        (.scope (params.map Identifier.text).reverse :: .function name.text role :: around)
        ((params.map Identifier.text).reverse :: names) :=
      hopened.passed hpassed .inside rfl rfl
    exact (parameters_reports params ho.2.1 hopened).trans (stmts_reports hbody body ho.2.2)

theorem methods_reports {r : Resolution} {around : Surroundings} {names : ScopeNames}
    (h : r.Around names) (hs : r.Settled) (hc : r.classContext = around.classContext)
    (methods : List FunctionDef) (ho : Stmt.OrdinaryMethods methods) :
    Reports r (r.methods methods) (Stmt.methodSites around methods) := by
  match methods with
  | [] => exact .same rfl
  | declaration :: rest =>
    have hunmoved := (function_visited h hs (methodContext declaration.name) declaration ho.1).1
    exact (function_reports h hs hc .method declaration ho.1).trans
      (methods_reports (hunmoved.around h) (hunmoved.settled hs) (hunmoved.classContext.trans hc) rest ho.2)

end

theorem start_stands : start.Stands [] [] :=
  ⟨⟨.nil, by simp [start], nofun⟩, nofun, .outside, rfl, rfl⟩

end Resolution

open Resolution

variable {body : List Stmt}

/-- The faults of a program are what its sites break. -/
theorem faults_eq_violations (ho : Stmt.OrdinaryAll body) :
    (start.stmts body).faults.reverse = (Stmt.sitesAll [] body).flatMap Site.violations := by
  rw [stmts_reports start_stands body ho, show start.faults = [] from rfl, List.append_nil,
    List.reverse_reverse]

/-- A program resolves if and only if it obeys the rules. -/
theorem resolves_iff_obeys (ho : Stmt.OrdinaryAll body) :
    Resolves body ↔ ∀ site ∈ Stmt.sitesAll [] body, ∀ rule, ¬ site.Breaks rule := by
  rw [resolves_iff, ← List.reverse_eq_nil_iff, faults_eq_violations ho, List.flatMap_eq_nil_iff]
  exact forall₂_congr fun site _ => site.violations_eq_nil_iff

/-- The resolver reports exactly the violations of the rules of scoping. For the program of every text
that is read, resolution succeeds if and only if no site of the program breaks a rule, and otherwise it
gives one diagnostic for each site and each rule that is broken there, on the line of the site. -/
theorem resolve_reports_violations {source : String} {firstId : NodeId} {body : List Stmt}
    (h : (Reading.ofSource source firstId).result = .ok body) :
    ((∃ found, resolve body = .ok found) ↔
      ∀ site ∈ Stmt.sitesAll [] body, ∀ rule, ¬ site.Breaks rule) ∧
    ∀ faults, resolve body = .error faults →
      faults = (Stmt.sitesAll [] body).flatMap Site.violations := by
  have hordinary := Session.ordinary_of_ofSource h
  refine ⟨resolves_iff_obeys hordinary, fun faults herror => ?_⟩
  rw [← faults_eq_violations hordinary]
  unfold resolve at herror
  simp only at herror
  split at herror
  · cases herror
  · exact (Except.error.inj herror).symm

/-- A program with a return at the top level and a local variable that is read in its own initial value. -/
theorem resolve_reports_violations_two :
    ∃ body, (Reading.ofSource "return 1;\n{ var a = a; }" 0).result = .ok body ∧
      (∃ site ∈ Stmt.sitesAll [] body, ∃ rule, site.Breaks rule) ∧
      (Stmt.sitesAll [] body).flatMap Site.violations =
        [⟨.scoping .returnOutsideFunction, 1⟩, ⟨.scoping .readInOwnInitializer, 2⟩] := by
  have hread : (Reading.ofSource "return 1;\n{ var a = a; }" 0).result.isOk = true := by decide +kernel
  have hcheck : check "return 1;\n{ var a = a; }" = .error
      [⟨.scoping .returnOutsideFunction, 1⟩, ⟨.scoping .readInOwnInitializer, 2⟩] := by decide +kernel
  cases hbody : (Reading.ofSource "return 1;\n{ var a = a; }" 0).result with
  | error faults =>
    rw [hbody] at hread
    cases hread
  | ok body =>
    obtain ⟨hok, herror⟩ := resolve_reports_violations hbody
    rw [check, hbody] at hcheck
    cases hresolve : resolve body with
    | ok found =>
      simp only [bind, Except.bind, hresolve] at hcheck
      cases hcheck
    | error faults =>
      simp only [bind, Except.bind, hresolve] at hcheck
      cases hcheck
      refine ⟨body, rfl, ?_, (herror _ hresolve).symm⟩
      by_contra hnone
      push Not at hnone
      obtain ⟨found, hfound⟩ := hok.2 hnone
      rw [hfound] at hresolve
      cases hresolve

end Lox
