import Lox.Proofs.Resolution.Ordinary
import Lox.Resolution

/-!
# The walk of resolution

A walk that finds no fault places every reference of the program. What a part of the walk adds, to
the depths and to the faults, is said for that part alone, and two parts in a row are put together
by `Visited.trans`.
-/

namespace Lox

/-- The tables of scopes have the names. -/
def ScopesHave (scopes : List (Table Bool)) (names : ScopeNames) : Prop :=
  List.Forall₂ (fun (table : Table Bool) scope => ∀ name, table.contains name ↔ name ∈ scope) scopes
    names

namespace ScopesHave

variable {scopes : List (Table Bool)} {names : ScopeNames}

/-- The depth of a name depends on the names of the scopes only. -/
theorem findIdx?_eq (h : ScopesHave scopes names) (name : String) :
    scopes.findIdx? (·.contains name) = names.depth? name := by
  unfold ScopesHave at h
  unfold ScopeNames.depth?
  induction h with
  | nil => rfl
  | @cons table scope _ _ hhave _ ih =>
    have hc : table.contains name = decide (name ∈ scope) :=
      Bool.eq_iff_iff.2 ((hhave name).trans decide_eq_true_iff.symm)
    rw [List.findIdx?_cons, List.findIdx?_cons, ih, hc]

theorem declare (h : ScopesHave scopes names) (name : String) (isDefined : Bool) :
    ScopesHave (scopes.modifyHead (·.insert name isDefined)) (names.declare name) := by
  cases h with
  | nil => exact .nil
  | cons hhave hrest =>
    refine .cons (fun other => ?_) hrest
    rw [Table.contains_insert, Bool.or_eq_true, decide_eq_true_iff, hhave other, List.mem_cons]

/-- To define a name that is declared changes no names. -/
theorem define {name : String} (h : ScopesHave scopes (names.declare name)) (isDefined : Bool) :
    ScopesHave (scopes.modifyHead (·.insert name isDefined)) (names.declare name) := by
  cases names with
  | nil =>
    cases h with
    | nil => exact .nil
  | cons scope outer =>
    cases h with
    | cons hhave hrest =>
      refine .cons (fun other => ?_) hrest
      rw [Table.contains_insert, Bool.or_eq_true, decide_eq_true_iff, hhave other, List.mem_cons]
      exact or_self_left

/-- A name that the innermost table lacks is new. -/
theorem fresh (h : ScopesHave scopes names) {name : String}
    (hn : ¬ scopes.head?.any (·.contains name) = true) : names.Fresh name := by
  cases h with
  | nil => exact nofun
  | cons hhave hrest =>
    rintro _ ⟨⟩ hmem
    exact hn ((hhave name).2 hmem)

theorem opened (h : ScopesHave scopes names) (scope : List String) :
    ScopesHave (Table.ofList (scope.map (·, true)) :: scopes) (scope :: names) := by
  refine .cons (fun name => ?_) h
  rw [Table.contains_ofList_iff]
  simp

end ScopesHave

/-- Where `this` and `super` are to be found inside a class. -/
def ClassContext.Within (context : ClassContext) (names : ScopeNames) : Prop :=
  (context ≠ .outside → ∃ depth, names.depth? "this" = some depth) ∧
    (context = .derived → ∃ depth, names.depth? "this" = some depth ∧
      names.depth? "super" = some (depth + 1))

namespace ClassContext.Within

variable {context : ClassContext} {names : ScopeNames} {name : String} {scope : List String}

theorem declare (h : context.Within names) (hname : OrdinaryName name) :
    context.Within (names.declare name) := by
  have hthis : (names.declare name).depth? "this" = names.depth? "this" :=
    ScopeNames.depth?_declare_of_ne hname.1.symm
  have hsuper : (names.declare name).depth? "super" = names.depth? "super" :=
    ScopeNames.depth?_declare_of_ne hname.2.symm
  exact ⟨by rw [hthis]; exact h.1, by rw [hthis, hsuper]; exact h.2⟩

/-- A scope of ordinary names moves both names one further out. -/
theorem cons (h : context.Within names) (hscope : ∀ name ∈ scope, OrdinaryName name) :
    context.Within (scope :: names) := by
  have hthis : "this" ∉ scope := fun hmem => (hscope _ hmem).1 rfl
  have hsuper : "super" ∉ scope := fun hmem => (hscope _ hmem).2 rfl
  constructor
  · intro hc
    obtain ⟨depth, hd⟩ := h.1 hc
    exact ⟨depth + 1, by rw [ScopeNames.depth?_cons_of_not_mem hthis, hd]; rfl⟩
  · intro hc
    obtain ⟨depth, hd, hs⟩ := h.2 hc
    refine ⟨depth + 1, ?_, ?_⟩
    · rw [ScopeNames.depth?_cons_of_not_mem hthis, hd]
      rfl
    · rw [ScopeNames.depth?_cons_of_not_mem hsuper, hs]
      rfl

end ClassContext.Within

namespace Resolution

/-- The walk stands where the scopes have these names. -/
structure Around (r : Resolution) (names : ScopeNames) : Prop where
  scopes : ScopesHave r.scopes names
  classContext : r.classContext.Within names

/-- No name is declared without being defined. -/
def Settled (r : Resolution) : Prop := ∀ scope ∈ r.scopes, ∀ name, scope.get? name ≠ some false

theorem start_around : start.Around [] :=
  ⟨.nil, fun hcontext => absurd rfl hcontext, fun hcontext => by cases hcontext⟩

theorem start_settled : start.Settled := List.forall_mem_nil _

/-- What a part of the walk, from `r` to `s`, adds for the nodes of the tree it visits: if it finds
no fault, depths that agree with the ones it records have the property `P`. -/
def Visited (r s : Resolution) (nodes : List NodeId) (P : Depths → Prop) : Prop :=
  ∃ found noted, s.depths = found ++ r.depths ∧ s.faults = noted ++ r.faults ∧
    (∀ entry ∈ found, entry.1 ∈ nodes) ∧ (noted = [] → nodes.Nodup → ∀ depths : Depths,
      (∀ id ∈ nodes, depths id = found.lookup id) → P depths)

theorem lookup_eq_none {found : List (NodeId × Nat)} {id : NodeId}
    (h : ∀ entry ∈ found, entry.1 ≠ id) : found.lookup id = none := by
  rw [List.lookup_eq_none_iff]
  intro entry hentry
  simpa using (h entry hentry).symm

namespace Visited

variable {r s t : Resolution} {nodes others : List NodeId} {P Q : Depths → Prop}

/-- Nothing is added, whatever happens to the scopes and the contexts. -/
theorem same (hd : s.depths = r.depths) (hn : s.faults = r.faults) (h : ∀ depths, P depths) :
    Visited r s [] P :=
  ⟨[], [], hd, hn, nofun, fun _ _ depths _ => h depths⟩

/-- A fault is noted, or else there is none. -/
theorem checked (fault : Diagnostic) {p : Prop} [Decidable p]
    (hd : s.depths = r.depths) (hn : s.faults = if p then fault :: r.faults else r.faults) :
    Visited r s [] fun _ => ¬ p := by
  by_cases hp : p
  · rw [if_pos hp] at hn
    exact ⟨[], [fault], hd, hn, nofun, nofun⟩
  · rw [if_neg hp] at hn
    exact same hd hn fun _ => hp

theorem mono (h : Visited r s nodes P) (hPQ : ∀ depths, P depths → Q depths) :
    Visited r s nodes Q := by
  obtain ⟨found, noted, hd, hn, hmem, hP⟩ := h
  exact ⟨found, noted, hd, hn, hmem,
    fun hnil hnodup depths hdepths => hPQ depths (hP hnil hnodup depths hdepths)⟩

/-- One part after the other. The nodes of a program are distinct, so no part overrules another. -/
theorem trans (h : Visited r s nodes P) (k : Visited s t others Q) :
    Visited r t (nodes ++ others) fun depths => P depths ∧ Q depths := by
  obtain ⟨found, noted, hd, hn, hmem, hP⟩ := h
  obtain ⟨found', noted', kd, kn, kmem, kQ⟩ := k
  refine ⟨found' ++ found, noted' ++ noted, ?_, ?_, ?_, ?_⟩
  · rw [kd, hd, List.append_assoc]
  · rw [kn, hn, List.append_assoc]
  · intro entry hentry
    rcases List.mem_append.1 hentry with h | h
    · exact List.mem_append_right _ (kmem entry h)
    · exact List.mem_append_left _ (hmem entry h)
  · intro hnil hnodup depths hdepths
    obtain ⟨hnil', hnil⟩ := List.append_eq_nil_iff.1 hnil
    obtain ⟨hnodup, hnodup', hdisjoint⟩ := List.nodup_append.1 hnodup
    refine ⟨hP hnil hnodup depths fun id hid => ?_, kQ hnil' hnodup' depths fun id hid => ?_⟩
    · have hnone : found'.lookup id = none :=
        lookup_eq_none fun entry hentry he => hdisjoint id hid _ (kmem entry hentry) he.symm
      rw [hdepths id (List.mem_append_left _ hid), List.lookup_append, hnone, Option.none_or]
    · have hnone : found.lookup id = none :=
        lookup_eq_none fun entry hentry he => hdisjoint _ (hmem entry hentry) id hid he
      rw [hdepths id (List.mem_append_right _ hid), List.lookup_append, hnone, Option.or_none]

/-- A part that visits no node comes first. -/
theorem after (h : Visited r s [] P) (k : Visited s t nodes Q) :
    Visited r t nodes fun depths => P depths ∧ Q depths := h.trans k

/-- A part that visits no node comes last. -/
theorem before (h : Visited r s nodes P) (k : Visited s t [] Q) :
    Visited r t nodes fun depths => P depths ∧ Q depths := by
  have htrans := h.trans k
  rwa [List.append_nil] at htrans

end Visited

/-- The walk of an expression leaves the scopes and the contexts alone. -/
structure Unmoved (r s : Resolution) : Prop where
  scopes : s.scopes = r.scopes
  functionContext : s.functionContext = r.functionContext
  classContext : s.classContext = r.classContext

namespace Unmoved

variable {r s t : Resolution} {names : ScopeNames}

theorem refl (r : Resolution) : Unmoved r r := ⟨rfl, rfl, rfl⟩

theorem trans (h : Unmoved r s) (k : Unmoved s t) : Unmoved r t :=
  ⟨k.scopes.trans h.scopes, k.functionContext.trans h.functionContext,
    k.classContext.trans h.classContext⟩

theorem around (h : Unmoved r s) (hr : r.Around names) : s.Around names :=
  ⟨h.scopes ▸ hr.scopes, h.classContext ▸ hr.classContext⟩

theorem settled (h : Unmoved r s) (hr : r.Settled) : s.Settled := by
  unfold Settled
  rw [h.scopes]
  exact hr

theorem isInitializing (h : Unmoved r s) (name : String) :
    s.isInitializing name = r.isInitializing name := by
  unfold Resolution.isInitializing
  rw [h.scopes]

end Unmoved

theorem unmoved_locate (r : Resolution) (id : NodeId) (name : String) :
    Unmoved r (r.locate id name) := by
  unfold locate
  split <;> exact ⟨rfl, rfl, rfl⟩

theorem unmoved_report (r : Resolution) (fault : ScopeFault) (line : Nat) :
    Unmoved r (r.report fault line) := ⟨rfl, rfl, rfl⟩

variable {r : Resolution} {names : ScopeNames}

theorem locate_visited (h : ScopesHave r.scopes names) (id : NodeId) (name : String) :
    Visited r (r.locate id name) [id] fun depths => depths id = names.depth? name := by
  unfold locate depth?
  rw [h.findIdx?_eq name]
  cases hd : names.depth? name with
  | none =>
    refine ⟨[], [], rfl, rfl, nofun, fun _ _ depths hdepths => ?_⟩
    exact hdepths id (by simp)
  | some depth =>
    refine ⟨[(id, depth)], [], rfl, rfl, by simp, fun _ _ depths hdepths => ?_⟩
    simpa using hdepths id (by simp)

theorem reference_visited (h : ScopesHave r.scopes names) (target : Reference) :
    Visited r (r.reference target) [target.id] fun depths =>
      depths target.id = names.depth? target.name.text ∧
        ¬ r.isInitializing target.name.text = true := by
  let checked := if r.isInitializing target.name.text then
      r.report .readInOwnInitializer target.name.line
    else r
  have hchecked : Visited r checked [] fun _ => ¬ r.isInitializing target.name.text = true := by
    unfold checked
    refine Visited.checked ⟨.scoping .readInOwnInitializer, target.name.line⟩ ?_ ?_
    · split <;> rfl
    · split <;> rfl
  have hunmoved : Unmoved r checked := by
    unfold checked
    split
    · exact unmoved_report r _ _
    · exact .refl r
  have hscopes : ScopesHave checked.scopes names := hunmoved.scopes ▸ h
  exact (hchecked.after (locate_visited hscopes target.id target.name.text)).mono
    fun depths hdepths => hdepths.symm

theorem unmoved_reference (r : Resolution) (target : Reference) :
    Unmoved r (r.reference target) := by
  unfold reference
  split
  · exact (unmoved_report r _ _).trans (unmoved_locate _ _ _)
  · exact unmoved_locate _ _ _

mutual

theorem unmoved_expr (r : Resolution) (e : Expr) : Unmoved r (r.expr e) := by
  cases e with
  | literal => exact .refl r
  | unary _ operand => exact unmoved_expr r operand
  | binary left _ right | logical left _ right =>
    exact (unmoved_expr r left).trans (unmoved_expr _ right)
  | grouping inner => exact unmoved_expr r inner
  | reference target => exact unmoved_reference r target
  | assign target value => exact (unmoved_expr r value).trans (unmoved_locate _ _ _)
  | call callee arguments => exact (unmoved_expr r callee).trans (unmoved_exprs _ arguments)
  | get object => exact unmoved_expr r object
  | set object _ value => exact (unmoved_expr r value).trans (unmoved_expr _ object)
  | this id =>
    rw [expr]
    split
    · exact unmoved_report r _ _
    · exact unmoved_locate r _ _
  | super id =>
    rw [expr]
    split
    · exact unmoved_report r _ _
    · exact unmoved_report r _ _
    · exact unmoved_locate r _ _

theorem unmoved_exprs (r : Resolution) (es : List Expr) : Unmoved r (r.exprs es) := by
  cases es with
  | nil => exact .refl r
  | cons e rest => exact (unmoved_expr r e).trans (unmoved_exprs _ rest)

end

/-- An expression does not read a variable that is being declared. -/
def SparesInitializing (r : Resolution) (e : Expr) : Prop :=
  ∀ name, r.isInitializing name = true → e.reads name = false

def SparesInitializingAll (r : Resolution) (es : List Expr) : Prop :=
  ∀ name, r.isInitializing name = true → Expr.readsAny name es = false

theorem Unmoved.spares {s : Resolution} (h : Unmoved r s) {e : Expr}
    (hs : s.SparesInitializing e) : r.SparesInitializing e :=
  fun name hname => hs name ((h.isInitializing name).trans hname)

mutual

/-- An expression that is visited without a fault is placed. -/
theorem expr_visited {r : Resolution} (h : r.Around names) (e : Expr) (ho : e.Ordinary) :
    Visited r (r.expr e) e.nodes fun depths => e.Placed depths names ∧ r.SparesInitializing e := by
  cases e with
  | literal => exact .same rfl rfl fun _ => ⟨trivial, fun _ _ => rfl⟩
  | unary _ operand => exact expr_visited h operand ho
  | binary left _ right | logical left _ right =>
    have hunmoved := unmoved_expr r left
    refine ((expr_visited h left ho.1).trans
      (expr_visited (hunmoved.around h) right ho.2)).mono ?_
    rintro depths ⟨⟨hl, hls⟩, hr, hrs⟩
    refine ⟨⟨hl, hr⟩, fun name hname => ?_⟩
    rw [Expr.reads, hls name hname, hunmoved.spares hrs name hname]
    rfl
  | grouping inner => exact expr_visited h inner ho
  | reference target =>
    refine (reference_visited h.scopes target).mono ?_
    rintro depths ⟨hd, hn⟩
    refine ⟨hd, fun name hname => decide_eq_false fun he => ?_⟩
    rw [he] at hn
    exact hn hname
  | assign target value =>
    have hunmoved := unmoved_expr r value
    refine ((expr_visited h value ho.2).trans
      (locate_visited (hunmoved.around h).scopes target.id target.name.text)).mono ?_
    rintro depths ⟨⟨hv, hs⟩, hd⟩
    exact ⟨⟨ho.1, hd, hv⟩, hs⟩
  | call callee arguments =>
    have hunmoved := unmoved_expr r callee
    refine ((expr_visited h callee ho.1).trans
      (exprs_visited (hunmoved.around h) arguments ho.2)).mono ?_
    rintro depths ⟨⟨hc, hcs⟩, ha, has⟩
    refine ⟨⟨hc, ha⟩, fun name hname => ?_⟩
    rw [Expr.reads, hcs name hname, has name ((hunmoved.isInitializing name).trans hname)]
    rfl
  | get object => exact expr_visited h object ho
  | set object _ value =>
    have hunmoved := unmoved_expr r value
    refine ((expr_visited h value ho.2).trans
      (expr_visited (hunmoved.around h) object ho.1)).mono ?_
    rintro depths ⟨⟨hv, hvs⟩, hb, hbs⟩
    refine ⟨⟨hb, hv⟩, fun name hname => ?_⟩
    rw [Expr.reads, hvs name hname, hunmoved.spares hbs name hname]
    rfl
  | this id line =>
    rw [expr]
    split
    · exact ⟨[], [_], rfl, rfl, nofun, nofun⟩
    · next hc =>
      obtain ⟨depth, hdepth⟩ := h.classContext.1 hc
      refine (locate_visited h.scopes id "this").mono fun depths hd => ?_
      exact ⟨⟨depth, hdepth, hd.trans hdepth⟩, fun _ _ => rfl⟩
  | super id line method =>
    rw [expr]
    split
    · exact ⟨[], [_], rfl, rfl, nofun, nofun⟩
    · exact ⟨[], [_], rfl, rfl, nofun, nofun⟩
    · next hc =>
      obtain ⟨depth, hthis, hsuper⟩ := h.classContext.2 hc
      refine (locate_visited h.scopes id "super").mono fun depths hd => ?_
      exact ⟨⟨depth, hthis, hsuper, hd.trans hsuper⟩, fun _ _ => rfl⟩

theorem exprs_visited {r : Resolution} (h : r.Around names) (es : List Expr) (ho : Expr.OrdinaryAll es) :
    Visited r (r.exprs es) (Expr.nodesAll es) fun depths =>
      Expr.PlacedAll depths names es ∧ r.SparesInitializingAll es := by
  cases es with
  | nil => exact .same rfl rfl fun _ => ⟨trivial, fun _ _ => rfl⟩
  | cons e rest =>
    have hunmoved := unmoved_expr r e
    refine ((expr_visited h e ho.1).trans
      (exprs_visited (hunmoved.around h) rest ho.2)).mono ?_
    rintro depths ⟨⟨he, hes⟩, hr, hrs⟩
    refine ⟨⟨he, hr⟩, fun name hname => ?_⟩
    rw [Expr.readsAny, hes name hname, hrs name ((hunmoved.isInitializing name).trans hname)]
    rfl

end

/-! ### Declarations -/

theorem scopes_mark (r : Resolution) (name : String) (isDefined : Bool) :
    (r.mark name isDefined).scopes = r.scopes.modifyHead (·.insert name isDefined) := by
  unfold mark
  split
  · next h => rw [h]; rfl
  · next h => rw [h]; rfl

theorem scopes_declare (r : Resolution) (name : Identifier) :
    (r.declare name).scopes = r.scopes.modifyHead (·.insert name.text false) := by
  unfold declare
  split <;> exact scopes_mark r name.text false

/-- The walk has passed from `r` to `s`, where the scopes have these names. The scopes around the
innermost one are as they were. -/
structure Passed (r s : Resolution) (names : ScopeNames) : Prop where
  around : s.Around names
  settled : s.Settled
  outer : s.scopes.tail = r.scopes.tail
  functionContext : s.functionContext = r.functionContext
  classContext : s.classContext = r.classContext

theorem Unmoved.passed {s : Resolution} (h : Unmoved r s) (ha : r.Around names)
    (hs : r.Settled) : Passed r s names :=
  ⟨h.around ha, h.settled hs, by rw [h.scopes], h.functionContext, h.classContext⟩

theorem Passed.trans {s t : Resolution} {others : ScopeNames} (h : Passed r s names)
    (k : Passed s t others) : Passed r t others :=
  ⟨k.around, k.settled, k.outer.trans h.outer, k.functionContext.trans h.functionContext,
    k.classContext.trans h.classContext⟩

/-- A declared name is in the innermost scope, not defined yet. -/
theorem declare_visited (h : r.Around names) (name : Identifier) :
    Visited r (r.declare name) [] fun _ => names.Fresh name.text := by
  have hsame : (r.mark name.text false).depths = r.depths ∧
      (r.mark name.text false).faults = r.faults := by
    unfold mark
    split <;> exact ⟨rfl, rfl⟩
  have hchecked : Visited r (r.declare name) [] fun _ => ¬ r.declares name.text = true := by
    refine Visited.checked ⟨.scoping .alreadyDeclared, name.line⟩ ?_ ?_
    · unfold declare
      split <;> exact hsame.1
    · unfold declare
      split
      · exact congrArg _ hsame.2
      · exact hsame.2
  exact hchecked.mono fun _ hn => h.scopes.fresh hn

theorem contexts_mark (r : Resolution) (name : String) (isDefined : Bool) :
    (r.mark name isDefined).functionContext = r.functionContext ∧
      (r.mark name isDefined).classContext = r.classContext := by
  unfold mark
  split <;> exact ⟨rfl, rfl⟩

theorem contexts_declare (r : Resolution) (name : Identifier) :
    (r.declare name).functionContext = r.functionContext ∧
      (r.declare name).classContext = r.classContext := by
  unfold declare
  split <;> exact contexts_mark r name.text false

theorem around_declare (h : r.Around names) {name : Identifier} (ho : OrdinaryName name.text) :
    (r.declare name).Around (names.declare name.text) := by
  constructor
  · rw [scopes_declare]
    exact h.scopes.declare name.text false
  · rw [(contexts_declare r name).2]
    exact h.classContext.declare ho

theorem get?_ne_false_insert {table : Table Bool} {name : String}
    (h : ∀ other, other ≠ name → table.get? other ≠ some false) (other : String) :
    (table.insert name true).get? other ≠ some false := by
  rw [Table.get?_insert]
  split
  · simp
  · next hne => exact h other hne

/-- When the name is defined, the innermost scope is settled again. -/
theorem define_passed {s : Resolution} {name : Identifier} (hs : r.Settled)
    (h : Unmoved (r.declare name) s) (ha : s.Around (names.declare name.text)) :
    Passed r (s.define name) (names.declare name.text) := by
  have hscopes : s.scopes = r.scopes.modifyHead (·.insert name.text false) :=
    h.scopes.trans (scopes_declare r name)
  obtain ⟨hf, hc⟩ := contexts_mark s name.text true
  obtain ⟨df, dc⟩ := contexts_declare r name
  have hdefine : (s.define name).scopes = s.scopes.modifyHead (·.insert name.text true) :=
    scopes_mark s name.text true
  refine ⟨⟨?_, ?_⟩, ?_, ?_, ?_, ?_⟩
  · rw [hdefine]
    exact ha.scopes.define true
  · rw [define, hc]
    exact ha.classContext
  · unfold Settled at hs ⊢
    rw [hdefine, hscopes]
    cases hr : r.scopes with
    | nil => exact nofun
    | cons table outer =>
      rw [hr] at hs
      simp only [List.modifyHead_cons, List.forall_mem_cons] at hs ⊢
      refine ⟨get?_ne_false_insert fun other hne => ?_, hs.2⟩
      rw [Table.get?_insert_of_ne _ _ hne]
      exact hs.1 other
  · rw [hdefine, hscopes]
    cases r.scopes <;> rfl
  · rw [define, hf, h.functionContext, df]
  · rw [define, hc, h.classContext, dc]

theorem define_visited (r : Resolution) (name : Identifier) :
    Visited r (r.define name) [] fun _ => True := by
  unfold define mark
  split <;> exact .same rfl rfl fun _ => trivial

/-- A name declared and defined at once. -/
theorem introduce_passed (h : r.Around names) (hs : r.Settled) {name : Identifier}
    (ho : OrdinaryName name.text) :
    Passed r ((r.declare name).define name) (names.declare name.text) :=
  define_passed hs (.refl _) (around_declare h ho)

theorem introduce_visited (h : r.Around names) (name : Identifier) :
    Visited r ((r.declare name).define name) [] fun _ => names.Fresh name.text :=
  ((declare_visited h name).after (define_visited _ name)).mono fun _ hv => hv.1

/-- While its initial value is visited, a local variable is being declared. -/
theorem isInitializing_declare (h : r.Around names) (hn : names ≠ []) (name : Identifier) :
    (r.declare name).isInitializing name.text = true := by
  unfold isInitializing
  rw [scopes_declare]
  have hscopes := h.scopes
  cases hr : r.scopes with
  | nil =>
    rw [hr] at hscopes
    cases hscopes
    exact absurd rfl hn
  | cons table outer => simp

theorem parameters_visited (params : List Identifier)
    (ho : ∀ param ∈ params, OrdinaryName param.text) {r : Resolution} {scope : List String}
    {outer : ScopeNames} (h : r.Around (scope :: outer)) (hs : r.Settled) :
    Passed r (r.parameters params) (((params.map Identifier.text).reverse ++ scope) :: outer) ∧
      Visited r (r.parameters params) [] fun _ => (params.map Identifier.text).Nodup ∧
        ∀ param ∈ params, param.text ∉ scope := by
  induction params generalizing r scope with
  | nil =>
    exact ⟨(Unmoved.refl r).passed h hs, .same rfl rfl fun _ => ⟨List.nodup_nil, nofun⟩⟩
  | cons param rest ih =>
    rw [List.forall_mem_cons] at ho
    have hpassed := introduce_passed h hs ho.1
    obtain ⟨hrest, hvisited⟩ := ih ho.2 hpassed.around hpassed.settled
    constructor
    · rw [List.map_cons, List.reverse_cons, List.append_assoc]
      exact hpassed.trans hrest
    · refine ((introduce_visited h param).after hvisited).mono ?_
      rintro _ ⟨hfresh, hnodup, hnot⟩
      refine ⟨?_, ?_⟩
      · rw [List.map_cons, List.nodup_cons]
        refine ⟨fun hmem => ?_, hnodup⟩
        obtain ⟨other, hother, he⟩ := List.mem_map.1 hmem
        exact hnot other hother (by rw [he]; exact .head _)
      · rw [List.forall_mem_cons]
        exact ⟨hfresh scope rfl, fun other hother hmem => hnot other hother (.tail _ hmem)⟩

/-! ### Statements -/

/-- A new scope, whose names are all defined. -/
theorem opened_around (h : r.Around names) {scope : List String}
    (hc : r.classContext.Within (scope :: names)) : (r.opened scope).Around (scope :: names) :=
  ⟨h.scopes.opened scope, hc⟩

theorem get?_ofList_true (names : List String) (table : Table Bool) (other : String)
    (h : table.get? other ≠ some false) :
    ((names.map (·, true)).foldl (fun (t : Table Bool) entry => t.insert entry.1 entry.2)
      table).get? other ≠ some false := by
  induction names generalizing table with
  | nil => exact h
  | cons name rest ih =>
    refine ih (table.insert name true) ?_
    rw [Table.get?_insert]
    split
    · simp
    · exact h

theorem opened_settled (hs : r.Settled) (scope : List String) : (r.opened scope).Settled := by
  unfold Settled opened
  rw [List.forall_mem_cons]
  exact ⟨fun name => get?_ofList_true scope Table.empty name nofun, hs⟩

theorem unmoved_checkReturn (r : Resolution) (line : Nat) (hasValue : Bool) :
    Unmoved r (r.checkReturn line hasValue) := by
  unfold checkReturn
  split <;> split <;> exact ⟨rfl, rfl, rfl⟩

theorem checkReturn_visited (r : Resolution) (line : Nat) (hasValue : Bool) :
    Visited r (r.checkReturn line hasValue) [] fun _ => True := by
  unfold checkReturn
  split <;> split
  · exact ⟨[], [_, _], rfl, rfl, nofun, nofun⟩
  · exact ⟨[], [_], rfl, rfl, nofun, nofun⟩
  · exact ⟨[], [_], rfl, rfl, nofun, nofun⟩
  · exact .same rfl rfl fun _ => trivial

theorem expr?_visited (h : r.Around names) (value : Option Expr) (ho : ∀ e ∈ value, e.Ordinary) :
    Unmoved r (r.expr? value) ∧ Visited r (r.expr? value) (Expr.nodes? value) fun depths =>
      ∀ e ∈ value, e.Placed depths names ∧ r.SparesInitializing e := by
  cases value with
  | none => exact ⟨.refl r, .same rfl rfl fun _ e he => absurd he (Option.not_mem_none e)⟩
  | some e =>
    refine ⟨unmoved_expr r e, (expr_visited h e (ho e rfl)).mono fun depths hp => ?_⟩
    rintro _ ⟨⟩
    exact hp

/-- The body of a scope is walked in it, and then the scope is closed again. -/
theorem closed_unmoved {s : Resolution} {scope : List String} {inner : ScopeNames}
    (h : Passed (r.opened scope) s inner) : Unmoved r s.closed :=
  ⟨h.outer, h.functionContext, h.classContext⟩

theorem base_within (names : ScopeNames) : ClassContext.Within .base (["this"] :: names) := by
  exact ⟨fun _ => ⟨0, ScopeNames.depth?_cons_of_mem (List.mem_singleton_self _)⟩, nofun⟩

theorem derived_within (names : ScopeNames) :
    ClassContext.Within .derived (["this"] :: ["super"] :: names) := by
  have hthis : ScopeNames.depth? (["this"] :: ["super"] :: names) "this" = some 0 :=
    ScopeNames.depth?_cons_of_mem (List.mem_singleton_self _)
  have hsuper : ScopeNames.depth? (["this"] :: ["super"] :: names) "super" = some (0 + 1) := by
    rw [ScopeNames.depth?_cons_of_not_mem (by simp),
      ScopeNames.depth?_cons_of_mem (List.mem_singleton_self _)]
    rfl
  exact ⟨fun _ => ⟨0, hthis⟩, fun _ => ⟨0, hthis, hsuper⟩⟩

/-- Where the parts of a class are walked, before its superclass is known. -/
def inClass (r : Resolution) (name : Identifier) : Resolution :=
  { (r.declare name).define name with classContext := .base }

/-- Where the superclass of a class is walked. -/
def inheriting (r : Resolution) (name : Identifier) (target : Reference) : Resolution :=
  { (if target.name.text = name.text then r.report .inheritsFromItself target.name.line else r) with
    classContext := .derived }

theorem superclass_some (r : Resolution) (name : Identifier) (target : Reference) :
    r.superclass name (some target) = ((r.inheriting name target).reference target).opened ["super"] :=
  rfl

theorem inheriting_scopes (r : Resolution) (name : Identifier) (target : Reference) :
    (r.inheriting name target).scopes = r.scopes := by
  unfold inheriting
  split <;> rfl

theorem inheriting_functionContext (r : Resolution) (name : Identifier) (target : Reference) :
    (r.inheriting name target).functionContext = r.functionContext := by
  unfold inheriting
  split <;> rfl

/-- The superclass is looked up among the names around the class, since it is not the class. -/
theorem superclass_visited {name : Identifier} (target : Reference)
    (h : ScopesHave r.scopes (names.declare name.text)) :
    Visited r (r.superclass name (some target)) [target.id] fun depths =>
      depths target.id = names.depth? target.name.text := by
  have hchecked : Visited r (r.inheriting name target) [] fun _ =>
      ¬ target.name.text = name.text := by
    unfold inheriting
    refine Visited.checked ⟨.scoping .inheritsFromItself, target.name.line⟩ ?_ ?_
    · split <;> rfl
    · split <;> rfl
  have hscopes : ScopesHave (r.inheriting name target).scopes (names.declare name.text) :=
    (inheriting_scopes r name target).symm ▸ h
  have hreference : Visited (r.inheriting name target) (r.superclass name (some target)) [target.id] _ :=
    reference_visited hscopes target
  refine (hchecked.after hreference).mono ?_
  rintro depths ⟨hne, hd, -⟩
  exact hd.trans (ScopeNames.depth?_declare_of_ne hne)

theorem superclass_frame (r : Resolution) (name : Identifier) (target : Reference) :
    (r.superclass name (some target)).scopes = Table.ofList [("super", true)] :: r.scopes ∧
      (r.superclass name (some target)).functionContext = r.functionContext ∧
      (r.superclass name (some target)).classContext = .derived := by
  have hunmoved := unmoved_reference (r.inheriting name target) target
  exact ⟨congrArg _ (hunmoved.scopes.trans (inheriting_scopes r name target)),
    hunmoved.functionContext.trans (inheriting_functionContext r name target), hunmoved.classContext⟩

/-- The scope of `this` in a class that does not inherit. -/
theorem base_opened (h : ScopesHave r.scopes names) (hs : r.Settled) :
    Around ({ r with classContext := .base }.opened ["this"]) (["this"] :: names) ∧
      Settled ({ r with classContext := .base }.opened ["this"]) :=
  ⟨⟨h.opened ["this"], base_within names⟩, opened_settled hs ["this"]⟩

/-- The scopes of `super` and `this` in a class that inherits. -/
theorem derived_opened (h : ScopesHave r.scopes names) (hs : r.Settled) (name : Identifier)
    (target : Reference) :
    ((r.superclass name (some target)).opened ["this"]).Around (["this"] :: ["super"] :: names) ∧
      ((r.superclass name (some target)).opened ["this"]).Settled := by
  obtain ⟨hscopes, -, hclass⟩ := superclass_frame r name target
  refine ⟨⟨?_, ?_⟩, ?_⟩
  · have hsuper : ScopesHave (r.superclass name (some target)).scopes (["super"] :: names) := by
      rw [hscopes]
      exact h.opened ["super"]
    exact hsuper.opened ["this"]
  · show (r.superclass name (some target)).classContext.Within _
    rw [hclass]
    exact derived_within names
  · refine opened_settled ?_ ["this"]
    unfold Settled
    rw [hscopes]
    exact opened_settled hs ["super"]

/-- A class is a name for what follows; the scopes of `super` and `this` are closed again. -/
theorem class_passed {s : Resolution} {name : Identifier} (h : r.Around names) (hs : r.Settled)
    (ho : OrdinaryName name.text) (hscopes : s.scopes = (r.inClass name).scopes)
    (hfunction : s.functionContext = (r.inClass name).functionContext)
    (hclass : s.classContext = r.classContext) : Passed r s (names.declare name.text) := by
  have hpassed := introduce_passed h hs ho
  refine ⟨⟨hscopes ▸ hpassed.around.scopes, hclass ▸ h.classContext.declare ho⟩, ?_,
    hscopes ▸ hpassed.outer, hfunction.trans hpassed.functionContext, hclass⟩
  unfold Settled
  rw [hscopes]
  exact hpassed.settled

theorem after_eq_self {s : Stmt} (h : s.declared? = none) : names.after s = names := by
  rw [ScopeNames.after, h]

mutual

/-- A statement that is visited without a fault is placed. -/
theorem stmt_visited {r : Resolution} {names : ScopeNames} (h : r.Around names) (hs : r.Settled)
    (s : Stmt) (ho : s.Ordinary) :
    Passed r (r.stmt s) (names.after s) ∧
      Visited r (r.stmt s) s.nodes fun depths => s.Placed depths names := by
  match s with
  | .expression value | .print value =>
    exact ⟨(unmoved_expr r value).passed h hs, (expr_visited h value ho).mono fun _ hv => hv.1⟩
  | .var name initial =>
    have hdeclared := around_declare h ho.1
    obtain ⟨hunmoved, hvisited⟩ := expr?_visited hdeclared initial ho.2
    refine ⟨define_passed hs hunmoved (hunmoved.around hdeclared), ?_⟩
    refine (((declare_visited h name).after hvisited).before (define_visited _ name)).mono ?_
    rintro depths ⟨⟨hfresh, hplaced⟩, -⟩
    refine ⟨ho.1, hfresh, fun e he => ⟨(hplaced e he).1, fun hne => ?_⟩⟩
    exact (hplaced e he).2 _ (isInitializing_declare h hne name)
  | .block body =>
    have hwithin : r.classContext.Within ([] :: names) := h.classContext.cons nofun
    have hopened := opened_around h hwithin
    obtain ⟨⟨inner, hpassed⟩, hvisited⟩ := stmts_visited hopened (opened_settled hs []) body ho
    exact ⟨(closed_unmoved hpassed).passed h hs, hvisited⟩
  | .conditional condition thenBranch none =>
    have hcondition := (unmoved_expr r condition).passed h hs
    obtain ⟨hthen, hvthen⟩ := stmt_visited hcondition.around hcondition.settled thenBranch ho.2.2
    rw [after_eq_self ho.2.1] at hthen
    refine ⟨hcondition.trans hthen, ((expr_visited h condition ho.1).trans hvthen).mono ?_⟩
    rintro depths ⟨⟨hc, -⟩, ht⟩
    exact ⟨hc, ho.2.1, ht⟩
  | .conditional condition thenBranch (some elseBranch) =>
    have hcondition := (unmoved_expr r condition).passed h hs
    obtain ⟨hthen, hvthen⟩ :=
      stmt_visited hcondition.around hcondition.settled thenBranch ho.2.1.2
    rw [after_eq_self ho.2.1.1] at hthen
    obtain ⟨helse, hvelse⟩ := stmt_visited hthen.around hthen.settled elseBranch ho.2.2.2
    rw [after_eq_self ho.2.2.1] at helse
    refine ⟨(hcondition.trans hthen).trans helse,
      (((expr_visited h condition ho.1).trans hvthen).trans hvelse).mono ?_⟩
    rintro depths ⟨⟨⟨hc, -⟩, ht⟩, he⟩
    exact ⟨hc, ⟨ho.2.1.1, ht⟩, ho.2.2.1, he⟩
  | .whileLoop condition body =>
    have hcondition := (unmoved_expr r condition).passed h hs
    obtain ⟨hbody, hvbody⟩ := stmt_visited hcondition.around hcondition.settled body ho.2.2
    rw [after_eq_self ho.2.1] at hbody
    refine ⟨hcondition.trans hbody, ((expr_visited h condition ho.1).trans hvbody).mono ?_⟩
    rintro depths ⟨⟨hc, -⟩, hb⟩
    exact ⟨hc, ho.2.1, hb⟩
  | .function declaration =>
    have hname := Stmt.OrdinaryFunction.ordinaryName ho
    have hpassed := introduce_passed h hs hname
    obtain ⟨hunmoved, hvisited⟩ :=
      function_visited hpassed.around hpassed.settled .function declaration ho
    refine ⟨hpassed.trans (hunmoved.passed hpassed.around hpassed.settled), ?_⟩
    refine ((introduce_visited h declaration.name).after hvisited).mono ?_
    rintro depths ⟨hfresh, hf⟩
    exact ⟨hname, hfresh, hf⟩
  | .ret line value =>
    have hchecked := unmoved_checkReturn r line value.isSome
    obtain ⟨hunmoved, hvisited⟩ := expr?_visited (hchecked.around h) value ho
    refine ⟨(hchecked.trans hunmoved).passed h hs, ?_⟩
    refine ((checkReturn_visited r line value.isSome).after hvisited).mono ?_
    rintro depths ⟨-, hv⟩
    exact fun e he => (hv e he).1
  | .classDef name none methods =>
    have hpassed := introduce_passed h hs ho.1
    obtain ⟨hthis, hsettled⟩ := base_opened hpassed.around.scopes hpassed.settled
    obtain ⟨hunmoved, hvisited⟩ := methods_visited hthis hsettled methods ho.2
    have hscopes : (r.stmt (.classDef name none methods)).scopes = (r.inClass name).scopes :=
      congrArg List.tail hunmoved.scopes
    refine ⟨class_passed h hs ho.1 hscopes hunmoved.functionContext rfl, ?_⟩
    have hname : Visited r (r.inClass name) [] _ := introduce_visited h name
    have hmethods : Visited (r.inClass name) (r.stmt (.classDef name none methods))
        (Stmt.methodNodes methods) _ := hvisited
    refine (hname.after hmethods).mono ?_
    rintro depths ⟨hfresh, hm⟩
    exact ⟨ho.1, hfresh, hm⟩
  | .classDef name (some target) methods =>
    have hpassed := introduce_passed h hs ho.1
    let derived := (r.inClass name).superclass name (some target)
    obtain ⟨hframe, hfunction, -⟩ := superclass_frame (r.inClass name) name target
    have hinside : ScopesHave (r.inClass name).scopes (names.declare name.text) := hpassed.around.scopes
    obtain ⟨hthis, hsettled⟩ := derived_opened hinside hpassed.settled name target
    obtain ⟨hunmoved, hvisited⟩ := methods_visited hthis hsettled methods ho.2
    have hscopes : (r.stmt (.classDef name (some target) methods)).scopes =
        (r.inClass name).scopes :=
      (congrArg (List.tail ∘ List.tail) hunmoved.scopes).trans (congrArg List.tail hframe)
    refine ⟨class_passed h hs ho.1 hscopes (hunmoved.functionContext.trans hfunction) rfl, ?_⟩
    have hname : Visited r (r.inClass name) [] _ := introduce_visited h name
    have hsuper : Visited (r.inClass name) derived [target.id] _ := superclass_visited target hinside
    have hmethods : Visited derived (r.stmt (.classDef name (some target) methods))
        (Stmt.methodNodes methods) _ := hvisited
    refine (hname.after (hsuper.trans hmethods)).mono ?_
    rintro depths ⟨hfresh, hd, hm⟩
    exact ⟨ho.1, hfresh, hd, hm⟩

theorem stmts_visited {r : Resolution} {names : ScopeNames} (h : r.Around names) (hs : r.Settled)
    (body : List Stmt) (ho : Stmt.OrdinaryAll body) :
    (∃ inner, Passed r (r.stmts body) inner) ∧
      Visited r (r.stmts body) (Stmt.nodesAll body) fun depths =>
        Stmt.PlacedAll depths names body := by
  match body with
  | [] => exact ⟨⟨names, (Unmoved.refl r).passed h hs⟩, .same rfl rfl fun _ => trivial⟩
  | s :: rest =>
    obtain ⟨hpassed, hvisited⟩ := stmt_visited h hs s ho.1
    obtain ⟨⟨inner, hrest⟩, hvrest⟩ := stmts_visited hpassed.around hpassed.settled rest ho.2
    exact ⟨⟨inner, hpassed.trans hrest⟩, hvisited.trans hvrest⟩

theorem function_visited {r : Resolution} {names : ScopeNames} (h : r.Around names)
    (hs : r.Settled) (context : FunctionContext) (declaration : FunctionDef)
    (ho : Stmt.OrdinaryFunction declaration) :
    Unmoved r (r.function context declaration) ∧
      Visited r (r.function context declaration) (Stmt.functionNodes declaration) fun depths =>
        Stmt.PlacedFunction depths names declaration := by
  match declaration with
  | ⟨name, params, body⟩ =>
    let inside : Resolution := { r with functionContext := context }
    have hinside : inside.Around names := ⟨h.scopes, h.classContext⟩
    have hwithin : inside.classContext.Within ([] :: names) := hinside.classContext.cons nofun
    have hopened := opened_around hinside hwithin
    have hsettled : (inside.opened []).Settled := opened_settled hs []
    obtain ⟨hparams, hvparams⟩ := parameters_visited params ho.2.1 hopened hsettled
    rw [List.append_nil] at hparams
    obtain ⟨⟨inner, hbody⟩, hvbody⟩ := stmts_visited hparams.around hparams.settled body ho.2.2
    have hunmoved := closed_unmoved (hparams.trans hbody)
    refine ⟨⟨hunmoved.scopes, rfl, hunmoved.classContext⟩, ?_⟩
    refine (hvparams.after hvbody).mono ?_
    rintro depths ⟨⟨hnodup, -⟩, hb⟩
    exact ⟨hnodup, ho.2.1, hb⟩

theorem methods_visited {r : Resolution} {names : ScopeNames} (h : r.Around names)
    (hs : r.Settled) (methods : List FunctionDef) (ho : Stmt.OrdinaryMethods methods) :
    Unmoved r (r.methods methods) ∧
      Visited r (r.methods methods) (Stmt.methodNodes methods) fun depths =>
        Stmt.PlacedMethods depths names methods := by
  match methods with
  | [] => exact ⟨.refl r, .same rfl rfl fun _ => trivial⟩
  | declaration :: rest =>
    obtain ⟨hunmoved, hvisited⟩ :=
      function_visited h hs (methodContext declaration.name) declaration ho.1
    obtain ⟨hrest, hvrest⟩ :=
      methods_visited (hunmoved.around h) (hunmoved.settled hs) rest ho.2
    exact ⟨hunmoved.trans hrest, hvisited.trans hvrest⟩

end

end Resolution

end Lox
