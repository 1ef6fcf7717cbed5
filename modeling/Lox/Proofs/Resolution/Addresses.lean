import Mathlib.Data.List.Nodup
import Lox.Proofs.Resolution.Uses
import Lox.Proofs.Resolution.Violations

/-!
# The table of a resolved program

What resolution hands over is exact lexical addressing: an entry for each use of a name that a scope
around it declares, with the number of scopes inside the innermost such scope, and nothing else.

## Implementation notes

The entries are those of the uses in the order in which they are visited. A step that reports a fault
may leave entries out, so nothing is said about it.
-/

namespace Lox

/-- What is recorded for a use. -/
def Use.entry? (use : Use) : Option (NodeId × Nat) :=
  (use.scopes.depth? use.name).map (use.id, ·)

namespace Resolution

/-- From `r` to `s` either faults are reported or the entries of these uses are recorded. -/
def Records (r s : Resolution) (uses : List Use) : Prop :=
  ∃ noted, s.faults = noted ++ r.faults ∧
    (noted = [] → s.depths = (uses.filterMap Use.entry?).reverse ++ r.depths)

namespace Records

variable {r s t : Resolution} {uses others : List Use}

/-- A step that changes neither depths nor faults. -/
theorem same (hd : s.depths = r.depths) (hf : s.faults = r.faults) : Records r s [] :=
  ⟨[], hf, fun _ => hd⟩

/-- A step that leaves the depths alone. -/
theorem checked (hd : s.depths = r.depths) (hf : ∃ noted, s.faults = noted ++ r.faults) :
    Records r s [] := by
  obtain ⟨noted, hf⟩ := hf
  exact ⟨noted, hf, fun _ => hd⟩

theorem trans (h : Records r s uses) (k : Records s t others) : Records r t (uses ++ others) := by
  obtain ⟨noted, hf, hd⟩ := h
  obtain ⟨noted', hf', hd'⟩ := k
  refine ⟨noted' ++ noted, by rw [hf', hf, List.append_assoc], fun hnil => ?_⟩
  obtain ⟨hnil', hnil⟩ := List.append_eq_nil_iff.1 hnil
  rw [hd' hnil', hd hnil, List.filterMap_append, List.reverse_append, List.append_assoc]

/-- A step that only checks comes before. -/
theorem after (h : Records r s []) (k : Records s t uses) : Records r t uses := h.trans k

/-- Nothing is recorded or reported afterwards. -/
theorem before (h : Records r s uses) (hd : t.depths = s.depths) (hf : t.faults = s.faults) :
    Records r t uses := by
  obtain ⟨noted, hfaults, hdepths⟩ := h
  exact ⟨noted, hf.trans hfaults, fun hnil => hd.trans (hdepths hnil)⟩

end Records

variable {r : Resolution} {names : ScopeNames}

theorem locate_records (use : Use) (h : ScopesHave r.scopes use.scopes) :
    Records r (r.locate use.id use.name) [use] := by
  refine ⟨[], faults_locate r use.id use.name, fun _ => ?_⟩
  simp only [locate, depth?, h.findIdx?_eq, List.filterMap_cons, Use.entry?]
  cases use.scopes.depth? use.name <;> rfl

theorem reference_records (use : Use) (h : ScopesHave r.scopes use.scopes) {target : Reference}
    (hid : target.id = use.id) (hname : target.name.text = use.name) :
    Records r (r.reference target) [use] := by
  let checked := if r.isInitializing target.name.text then
      r.report .readInOwnInitializer target.name.line
    else r
  have hchecked : Records r checked [] := by
    unfold checked
    split
    · exact .checked rfl ⟨[_], rfl⟩
    · exact .same rfl rfl
  have hscopes : ScopesHave checked.scopes use.scopes := by
    unfold checked
    split <;> exact h
  have hlocated := locate_records use hscopes
  rw [← hid, ← hname] at hlocated
  exact hchecked.after hlocated

mutual

/-- An expression has the entries of its uses recorded. -/
theorem expr_records {r : Resolution} (h : ScopesHave r.scopes names) (e : Expr) :
    Records r (r.expr e) (e.uses names) := by
  cases e with
  | literal => exact .same rfl rfl
  | unary _ operand => exact expr_records h operand
  | binary left _ right | logical left _ right =>
    exact (expr_records h left).trans (expr_records ((unmoved_expr r left).scopes ▸ h) right)
  | grouping inner => exact expr_records h inner
  | reference target =>
    exact reference_records ⟨.variable target.name.text, target.id, names⟩ h rfl rfl
  | assign target value =>
    exact (expr_records h value).trans
      (locate_records ⟨.assignment target.name.text, target.id, names⟩ ((unmoved_expr r value).scopes ▸ h))
  | call callee arguments =>
    exact (expr_records h callee).trans (exprs_records ((unmoved_expr r callee).scopes ▸ h) arguments)
  | get object => exact expr_records h object
  | set object _ value =>
    exact (expr_records h value).trans (expr_records ((unmoved_expr r value).scopes ▸ h) object)
  | this id line =>
    rw [Resolution.expr]
    split
    · exact ⟨[_], rfl, nofun⟩
    · exact locate_records ⟨.this, id, names⟩ h
  | super id line method =>
    rw [Resolution.expr]
    split
    · exact ⟨[_], rfl, nofun⟩
    · exact ⟨[_], rfl, nofun⟩
    · exact locate_records ⟨.super, id, names⟩ h

theorem exprs_records {r : Resolution} (h : ScopesHave r.scopes names) (es : List Expr) :
    Records r (r.exprs es) (Expr.usesAll names es) := by
  cases es with
  | nil => exact .same rfl rfl
  | cons e rest =>
    exact (expr_records h e).trans (exprs_records ((unmoved_expr r e).scopes ▸ h) rest)

end

theorem expr?_records (h : ScopesHave r.scopes names) (value : Option Expr) :
    Records r (r.expr? value) (Expr.uses? names value) := by
  cases value with
  | none => exact .same rfl rfl
  | some e => exact expr_records h e

/-! ### Statements -/

theorem depths_mark (r : Resolution) (name : String) (isDefined : Bool) :
    (r.mark name isDefined).depths = r.depths := by
  unfold mark
  split <;> rfl

theorem declare_records (r : Resolution) (name : Identifier) : Records r (r.declare name) [] := by
  unfold declare
  split
  · exact .checked (depths_mark ..) ⟨[_], congrArg _ (faults_mark ..)⟩
  · exact .same (depths_mark ..) (faults_mark ..)

theorem introduce_records (r : Resolution) (name : Identifier) :
    Records r ((r.declare name).define name) [] :=
  (declare_records r name).before (depths_mark ..) (faults_mark ..)

theorem parameters_records (r : Resolution) (params : List Identifier) :
    Records r (r.parameters params) [] := by
  induction params generalizing r with
  | nil => exact .same rfl rfl
  | cons param rest ih => exact (introduce_records r param).after (ih _)

theorem checkReturn_records (r : Resolution) (line : Nat) (hasValue : Bool) :
    Records r (r.checkReturn line hasValue) [] := by
  unfold checkReturn
  split <;> split
  · exact .checked rfl ⟨[_, _], rfl⟩
  · exact .checked rfl ⟨[_], rfl⟩
  · exact .checked rfl ⟨[_], rfl⟩
  · exact .same rfl rfl

theorem superclass_records (h : ScopesHave r.scopes names) (name : Identifier)
    (superclass : Option Reference) :
    Records r (r.superclass name superclass) (Reference.uses? names superclass) := by
  cases superclass with
  | none => exact .same rfl rfl
  | some target =>
    have hchecked : Records r (r.inheriting name target) [] := by
      unfold inheriting
      split
      · exact .checked rfl ⟨[_], rfl⟩
      · exact .same rfl rfl
    have hscopes : ScopesHave (r.inheriting name target).scopes names :=
      (inheriting_scopes r name target).symm ▸ h
    have hreference : Records _ ((r.inheriting name target).reference target)
        (Reference.uses? names (some target)) :=
      reference_records ⟨.superclass target.name.text, target.id, names⟩ hscopes rfl rfl
    exact (hchecked.after hreference).before rfl rfl

mutual

/-- A statement has the entries of its uses recorded. -/
theorem stmt_records {r : Resolution} {names : ScopeNames} (h : r.Around names) (hs : r.Settled)
    (s : Stmt) (ho : s.Ordinary) : Records r (r.stmt s) (s.uses names) := by
  match s with
  | .expression value | .print value => exact expr_records h.scopes value
  | .var name initial =>
    have hinitial := expr?_records (around_declare h ho.1).scopes initial
    exact ((declare_records r name).after hinitial).before (depths_mark ..) (faults_mark ..)
  | .block body =>
    have hwithin : r.classContext.Within ([] :: names) := h.classContext.cons nofun
    exact (stmts_records (opened_around h hwithin) (opened_settled hs []) body ho).before rfl rfl
  | .conditional condition thenBranch none =>
    have hcondition := (unmoved_expr r condition).passed h hs
    exact (expr_records h.scopes condition).trans
      (stmt_records hcondition.around hcondition.settled thenBranch ho.2.2)
  | .conditional condition thenBranch (some elseBranch) =>
    have hcondition := (unmoved_expr r condition).passed h hs
    have hthen := (stmt_visited hcondition.around hcondition.settled thenBranch ho.2.1.2).1
    rw [after_eq_self ho.2.1.1] at hthen
    exact ((expr_records h.scopes condition).trans
      (stmt_records hcondition.around hcondition.settled thenBranch ho.2.1.2)).trans
      (stmt_records hthen.around hthen.settled elseBranch ho.2.2.2)
  | .whileLoop condition body =>
    have hcondition := (unmoved_expr r condition).passed h hs
    exact (expr_records h.scopes condition).trans
      (stmt_records hcondition.around hcondition.settled body ho.2.2)
  | .function declaration =>
    have hpassed := introduce_passed h hs (Stmt.OrdinaryFunction.ordinaryName ho)
    exact (introduce_records r declaration.name).after
      (function_records hpassed.around hpassed.settled .function declaration ho)
  | .ret line value =>
    exact (checkReturn_records r line value.isSome).after
      (expr?_records ((unmoved_checkReturn r line value.isSome).scopes ▸ h.scopes) value)
  | .classDef name superclass methods =>
    have hpassed := introduce_passed h hs ho.1
    have hinside : ScopesHave (r.inClass name).scopes (names.declare name.text) := hpassed.around.scopes
    have hmethods : Records ((r.inClass name).superclass name superclass)
        (r.stmt (.classDef name superclass methods))
        (Stmt.methodUses ((names.declare name.text).inClass superclass) methods) := by
      cases superclass with
      | none =>
        obtain ⟨hthis, hsettled⟩ := base_opened hinside hpassed.settled
        exact (methods_records hthis hsettled methods ho.2).before rfl rfl
      | some target =>
        obtain ⟨hthis, hsettled⟩ := derived_opened hinside hpassed.settled name target
        exact (methods_records hthis hsettled methods ho.2).before rfl rfl
    -- The clause is visited before the scopes of `super` and `this` are opened.
    have hname : Records r (r.inClass name) [] := introduce_records r name
    exact hname.after ((superclass_records hinside name superclass).trans hmethods)

theorem stmts_records {r : Resolution} {names : ScopeNames} (h : r.Around names) (hs : r.Settled)
    (body : List Stmt) (ho : Stmt.OrdinaryAll body) :
    Records r (r.stmts body) (Stmt.usesAll names body) := by
  match body with
  | [] => exact .same rfl rfl
  | s :: rest =>
    have hpassed := (stmt_visited h hs s ho.1).1
    exact (stmt_records h hs s ho.1).trans
      (stmts_records hpassed.around hpassed.settled rest ho.2)

theorem function_records {r : Resolution} {names : ScopeNames} (h : r.Around names)
    (hs : r.Settled) (context : FunctionContext) (declaration : FunctionDef)
    (ho : Stmt.OrdinaryFunction declaration) :
    Records r (r.function context declaration) (Stmt.functionUses names declaration) := by
  match declaration with
  | ⟨name, params, body⟩ =>
    let inside : Resolution := { r with functionContext := context }
    have hwithin : inside.classContext.Within ([] :: names) := h.classContext.cons nofun
    have hopened : (inside.opened []).Around ([] :: names) :=
      ⟨h.scopes.opened [], hwithin⟩
    have hparams := (parameters_visited params ho.2.1 hopened (opened_settled hs [])).1
    rw [List.append_nil] at hparams
    have hvisited : Records r ((inside.opened []).parameters params) [] :=
      parameters_records (inside.opened []) params
    exact (hvisited.after (stmts_records hparams.around hparams.settled body ho.2.2)).before rfl rfl

theorem methods_records {r : Resolution} {names : ScopeNames} (h : r.Around names)
    (hs : r.Settled) (methods : List FunctionDef) (ho : Stmt.OrdinaryMethods methods) :
    Records r (r.methods methods) (Stmt.methodUses names methods) := by
  match methods with
  | [] => exact .same rfl rfl
  | declaration :: rest =>
    have hunmoved := (function_visited h hs (methodContext declaration.name) declaration ho.1).1
    exact (function_records h hs (methodContext declaration.name) declaration ho.1).trans
      (methods_records (hunmoved.around h) (hunmoved.settled hs) rest ho.2)

end

end Resolution

open Resolution

variable {body : List Stmt} {found : List (NodeId × Nat)}

/-- The table of a program lists the entries of its uses. -/
theorem entries_of_resolve (h : resolve body = .ok found) (ho : Stmt.OrdinaryAll body) :
    found = (Stmt.usesAll [] body).filterMap Use.entry? := by
  obtain ⟨noted, hfaults, hdepths⟩ := stmts_records start_around start_settled body ho
  unfold resolve at h
  simp only at h
  split at h
  · next hempty =>
    cases h
    rw [List.isEmpty_iff, hfaults, List.append_eq_nil_iff] at hempty
    rw [hdepths hempty.1, show start.depths = [] from rfl, List.append_nil, List.reverse_reverse]
  · cases h

theorem Use.entry?_eq_some_iff {use : Use} {id : NodeId} {depth : Nat} :
    use.entry? = some (id, depth) ↔ use.id = id ∧ use.BoundAt depth := by
  simp only [Use.entry?, Option.map_eq_some_iff, Prod.mk.injEq, boundAt_iff]
  constructor
  · rintro ⟨d, hd, rfl, rfl⟩
    exact ⟨rfl, hd⟩
  · rintro ⟨rfl, hd⟩
    exact ⟨depth, hd, rfl, rfl⟩

/-- The table of a resolved program is exact lexical addressing. For the program of every text that is
read and resolved, a use of a name has an entry if and only if some scope around it, not counting the
global one, declares the name before it, and the entry is the number of scopes inside the innermost
such scope. No other node has an entry. A `super` is at least two scopes away, with the scope of `this`
right inside the scope of `super`, which is right inside the scopes around a superclass clause. -/
theorem resolve_is_lexical_addressing {source : String} {firstId : NodeId} {body : List Stmt}
    {found : List (NodeId × Nat)} (hread : (Reading.ofSource source firstId).result = .ok body)
    (hresolve : resolve body = .ok found) :
    (∀ use ∈ Stmt.usesAll [] body,
      ((∃ depth, (use.id, depth) ∈ found) ↔ ∃ scope ∈ use.scopes, use.name ∈ scope) ∧
      ∀ depth, (use.id, depth) ∈ found ↔ use.BoundAt depth) ∧
    (∀ entry ∈ found, ∃ use ∈ Stmt.usesAll [] body, use.id = entry.1) ∧
    ∀ use ∈ Stmt.usesAll [] body, use.kind = .super → ∀ depth, (use.id, depth) ∈ found →
      2 ≤ depth ∧ ∃ inner clause name, clause ∈ Stmt.usesAll [] body ∧ clause.kind = .superclass name ∧
        use.scopes = inner ++ ["this"] :: ["super"] :: clause.scopes ∧ depth = inner.length + 1 := by
  have hordinary := Session.ordinary_of_ofSource hread
  have hnodup := (Session.program_of_ofSource hread).2.nodup
  rw [← Stmt.map_id_usesAll []] at hnodup
  have hentries := entries_of_resolve hresolve hordinary
  have hbound : ∀ use ∈ Stmt.usesAll [] body, ∀ depth,
      (use.id, depth) ∈ found ↔ use.BoundAt depth := by
    intro use hmem depth
    rw [hentries, List.mem_filterMap]
    constructor
    · rintro ⟨other, hother, hentry⟩
      obtain ⟨hid, hbound⟩ := Use.entry?_eq_some_iff.1 hentry
      exact List.inj_on_of_nodup_map hnodup hother hmem hid ▸ hbound
    · exact fun h => ⟨use, hmem, Use.entry?_eq_some_iff.2 ⟨rfl, h⟩⟩
  refine ⟨fun use hmem => ⟨?_, hbound use hmem⟩, fun entry hentry => ?_, ?_⟩
  · simp only [hbound use hmem, Use.exists_boundAt_iff]
  · rw [hentries] at hentry
    obtain ⟨use, hmem, heq⟩ := List.mem_filterMap.1 hentry
    exact ⟨use, hmem, (Use.entry?_eq_some_iff.1 heq).1⟩
  · intro use hmem hkind depth hdepth
    let AroundClause : ScopeNames → Prop := fun scopes => ∃ clause name,
      clause ∈ Stmt.usesAll [] body ∧ clause.kind = .superclass name ∧ clause.scopes = scopes
    have houtside : use.scopes.SuperOutside AroundClause :=
      Stmt.supersOutsideAll ScopeNames.superOutside_nil body hordinary
        (fun clause hclause name hkind => ⟨clause, name, hclause, hkind, rfl⟩) use hmem
    have hname : use.name = "super" := by rw [Use.name, hkind]
    have hsuper := Use.boundAt_iff.1 ((hbound use hmem depth).1 hdepth)
    rw [hname] at hsuper
    obtain ⟨scope, inner, outer, hscopes, rfl, clause, name, hclause, hkind', rfl⟩ :=
      houtside depth hsuper
    exact ⟨by omega, scope :: inner, clause, name, hclause, hkind', hscopes, rfl⟩

/-- A class in a block that inherits from another one there. -/
theorem resolve_is_lexical_addressing_super :
    ∃ body found, (Reading.ofSource "{ class A {} class B < A { m() { super.m(); } } }" 0).result = .ok body ∧
      resolve body = .ok found ∧ found = [(0, 0), (1, 2)] ∧
      Use.BoundAt ⟨.super, 1, [[], ["this"], ["super"], ["B", "A"]]⟩ 2 := by
  have hvisit : ((Reading.ofSource "{ class A {} class B < A { m() { super.m(); } } }" 0).result.toOption.map
      fun body => ((resolve body).toOption, Stmt.usesAll [] body)) =
        some (some [(0, 0), (1, 2)], [⟨.superclass "A", 0, [["B", "A"]]⟩,
          ⟨.super, 1, [[], ["this"], ["super"], ["B", "A"]]⟩]) := by decide +kernel
  cases hbody : (Reading.ofSource "{ class A {} class B < A { m() { super.m(); } } }" 0).result with
  | error faults =>
    rw [hbody] at hvisit
    cases hvisit
  | ok body =>
    rw [hbody] at hvisit
    obtain ⟨hresolve, huses⟩ := Prod.mk.inj (Option.some.inj hvisit)
    cases hfound : resolve body with
    | error faults =>
      rw [hfound] at hresolve
      cases hresolve
    | ok found =>
      rw [hfound] at hresolve
      cases hresolve
      have huse : (⟨.super, 1, [[], ["this"], ["super"], ["B", "A"]]⟩ : Use) ∈ Stmt.usesAll [] body := by
        rw [huses]
        exact .tail _ (.head _)
      obtain ⟨-, hbound⟩ := (resolve_is_lexical_addressing hbody hfound).1 _ huse
      exact ⟨body, _, rfl, hfound, rfl, (hbound 2).1 (.tail _ (.head _))⟩

end Lox
