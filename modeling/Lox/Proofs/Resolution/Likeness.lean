import Lox.Proofs.Resolution.Walk
import Lox.Proofs.Syntax.Likeness

/-!
# Resolution of like trees

Resolution sees the shape of a tree and its names only: either both of two like trees have faults or
none has. Between the statements of a program resolution keeps nothing, so that programs in a row are
resolved one by one.
-/

namespace Lox

namespace Resolution

/-- The same scopes and contexts, and faults in both states or in none. -/
structure Like (r s : Resolution) : Prop where
  scopes : r.scopes = s.scopes
  functionContext : r.functionContext = s.functionContext
  classContext : r.classContext = s.classContext
  faults : r.faults = [] ↔ s.faults = []

namespace Like

variable {l : Likeness} {r s : Resolution}

theorem refl (r : Resolution) : Like r r := ⟨rfl, rfl, rfl, Iff.rfl⟩

theorem report (h : Like r s) (fault : ScopeFault) (k m : Nat) :
    Like (r.report fault k) (s.report fault m) :=
  ⟨h.scopes, h.functionContext, h.classContext, by simp [Resolution.report]⟩

/-- A check of the same condition, whatever is noted. -/
theorem checked (h : Like r s) {p q : Prop} [Decidable p] [Decidable q] (hpq : p ↔ q)
    (fault : ScopeFault) (k m : Nat) :
    Like (if p then r.report fault k else r) (if q then s.report fault m else s) := by
  by_cases hp : p
  · rw [if_pos hp, if_pos (hpq.1 hp)]
    exact h.report fault k m
  · rw [if_neg hp, if_neg fun hq => hp (hpq.2 hq)]
    exact h

theorem opened (h : Like r s) (names : List String) : Like (r.opened names) (s.opened names) :=
  ⟨congrArg (_ :: ·) h.scopes, h.functionContext, h.classContext, h.faults⟩

theorem closed (h : Like r s) : Like r.closed s.closed :=
  ⟨congrArg List.tail h.scopes, h.functionContext, h.classContext, h.faults⟩

theorem inFunction (h : Like r s) (context : FunctionContext) :
    Like { r with functionContext := context } { s with functionContext := context } :=
  ⟨h.scopes, rfl, h.classContext, h.faults⟩

theorem inClass (h : Like r s) (context : ClassContext) :
    Like { r with classContext := context } { s with classContext := context } :=
  ⟨h.scopes, h.functionContext, rfl, h.faults⟩

theorem mark (h : Like r s) (name : String) (isDefined : Bool) :
    Like (r.mark name isDefined) (s.mark name isDefined) := by
  have hscopes := h.scopes
  unfold Resolution.mark
  rw [← hscopes]
  split
  · exact h
  · exact ⟨rfl, h.functionContext, h.classContext, h.faults⟩

variable {x y : Identifier} {t u : Reference}

theorem declare (h : Like r s) (hn : x.Alike l y) : Like (r.declare x) (s.declare y) := by
  have hdeclares : r.declares x.text = true ↔ s.declares y.text = true := by
    rw [Resolution.declares, Resolution.declares, h.scopes, hn.text]
  have hmark : Like (r.mark x.text false) (s.mark y.text false) := hn.text ▸ h.mark x.text false
  exact hmark.checked hdeclares .alreadyDeclared x.line y.line

theorem define (h : Like r s) (hn : x.Alike l y) : Like (r.define x) (s.define y) := by
  have hmark := h.mark x.text true
  unfold Resolution.define
  rwa [← hn.text]

theorem locate (h : Like r s) (i j : NodeId) (name : String) :
    Like (r.locate i name) (s.locate j name) := by
  have hdepth : r.depth? name = s.depth? name := by
    rw [Resolution.depth?, Resolution.depth?, h.scopes]
  unfold Resolution.locate
  rw [hdepth]
  cases s.depth? name with
  | none => exact h
  | some depth => exact ⟨h.scopes, h.functionContext, h.classContext, h.faults⟩

theorem reference (h : Like r s) (ht : t.Alike l u) : Like (r.reference t) (s.reference u) := by
  have hinit : r.isInitializing t.name.text = true ↔ s.isInitializing u.name.text = true := by
    rw [Resolution.isInitializing, Resolution.isInitializing, h.scopes, ht.name.text]
  have hchecked := h.checked hinit .readInOwnInitializer t.name.line u.name.line
  unfold Resolution.reference
  rw [ht.name.text] at hchecked ⊢
  exact hchecked.locate t.id u.id u.name.text

mutual

theorem expr {r s : Resolution} {a b : Expr} (hr : Like r s) (h : a.Alike l b) : Like (r.expr a) (s.expr b) := by
  cases h with
  | literal => exact hr
  | unary h | grouping h | get h =>
    rw [Resolution.expr, Resolution.expr]
    exact expr hr h
  | binary ha hb | logical ha hb =>
    rw [Resolution.expr, Resolution.expr]
    exact expr (expr hr ha) hb
  | reference ht => exact hr.reference ht
  | @assign t u _ _ ht hv =>
    have hvalue := (expr hr hv).locate t.id u.id t.name.text
    rw [Resolution.expr, Resolution.expr, ← ht.name.text]
    exact hvalue
  | call hc hes => exact exprs (expr hr hc) hes
  | set ha _ hv =>
    rw [Resolution.expr, Resolution.expr]
    exact expr (expr hr hv) ha
  | @this i j k m =>
    rw [Resolution.expr, Resolution.expr, hr.classContext]
    split
    · exact hr.report .thisOutsideClass k m
    · exact hr.locate i j "this"
  | @super i j k m =>
    rw [Resolution.expr, Resolution.expr, hr.classContext]
    split
    · exact hr.report .superOutsideClass k m
    · exact hr.report .superWithoutSuperclass k m
    · exact hr.locate i j "super"

theorem exprs {r s : Resolution} {as bs : List Expr} (hr : Like r s)
    (h : List.Forall₂ (Expr.Alike l) as bs) : Like (r.exprs as) (s.exprs bs) := by
  cases h with
  | nil => exact hr
  | cons ha has =>
    rw [Resolution.exprs, Resolution.exprs]
    exact exprs (expr hr ha) has

end

theorem expr? {a b : Option Expr} (hr : Like r s) (h : Option.Rel (Expr.Alike l) a b) :
    Like (r.expr? a) (s.expr? b) := by
  cases h with
  | none => exact hr
  | some h => exact hr.expr h

theorem checkReturn (h : Like r s) (k m : Nat) (hasValue : Bool) :
    Like (r.checkReturn k hasValue) (s.checkReturn m hasValue) := by
  have hchecked := h.checked (p := r.functionContext = .outside) (q := s.functionContext = .outside)
    (by rw [h.functionContext]) .returnOutsideFunction k m
  refine hchecked.checked ?_ .valueReturnedFromInitializer k m
  rw [h.functionContext]

theorem parameters {xs ys : List Identifier} (h : Like r s)
    (hp : List.Forall₂ (Identifier.Alike l) xs ys) : Like (r.parameters xs) (s.parameters ys) := by
  unfold Resolution.parameters
  induction hp generalizing r s with
  | nil => exact h
  | cons hn _ ih => exact ih ((h.declare hn).define hn)

theorem superclass {t u : Option Reference} (h : Like r s) (hn : x.Alike l y)
    (ht : Option.Rel (Reference.Alike l) t u) : Like (r.superclass x t) (s.superclass y u) := by
  cases ht with
  | none => exact h
  | @some t u ht =>
    have hname : t.name.text = x.text ↔ u.name.text = y.text := by rw [ht.name.text, hn.text]
    have hchecked := h.checked hname .inheritsFromItself t.name.line u.name.line
    exact ((hchecked.inClass .derived).reference ht).opened ["super"]

theorem methodContext_eq (hn : x.Alike l y) : methodContext x = methodContext y := by
  unfold methodContext
  rw [hn.text]

mutual

/-- Like trees have faults in like places. -/
theorem stmt {r s : Resolution} {a b : Stmt} (hr : Like r s) (h : a.Alike l b) :
    Like (r.stmt a) (s.stmt b) := by
  cases h with
  | expression h | print h => exact hr.expr h
  | var hn hv => exact ((hr.declare hn).expr? hv).define hn
  | block h => exact (stmts (hr.opened []) h).closed
  | conditional hc ht he =>
    cases he with
    | none =>
      rw [Resolution.stmt, Resolution.stmt]
      exact stmt (hr.expr hc) ht
    | some he =>
      rw [Resolution.stmt, Resolution.stmt]
      exact stmt (stmt (hr.expr hc) ht) he
  | whileLoop hc h =>
    rw [Resolution.stmt, Resolution.stmt]
    exact stmt (hr.expr hc) h
  | function hf => exact function ((hr.declare hf.name).define hf.name) .function hf
  | @ret k m _ _ _ hv =>
    have hchecked := hr.checkReturn k m
    cases hv with
    | none => exact hchecked false
    | some hv => exact (hchecked true).expr? (.some hv)
  | classDef hn hs hm =>
    have hdeclared := ((hr.declare hn).define hn).inClass .base
    have hinside := (hdeclared.superclass hn hs).opened ["this"]
    have hvisited := (methods hinside hm).closed
    rw [Resolution.stmt, Resolution.stmt, hr.classContext]
    cases hs with
    | none => exact hvisited.inClass _
    | some hs => exact hvisited.closed.inClass _

theorem stmts {r s : Resolution} {as bs : List Stmt} (hr : Like r s) (h : StmtsAlike l as bs) :
    Like (r.stmts as) (s.stmts bs) := by
  cases h with
  | nil => exact hr
  | cons ha has =>
    rw [Resolution.stmts, Resolution.stmts]
    exact stmts (stmt hr ha) has

theorem function {r s : Resolution} {f g : FunctionDef} (hr : Like r s)
    (context : FunctionContext) (h : f.Alike l g) :
    Like (r.function context f) (s.function context g) := by
  cases h with
  | intro _ hp hb =>
    have hinside := ((hr.inFunction context).opened []).parameters hp
    have hvisited := (stmts hinside hb).closed
    rw [Resolution.function, Resolution.function, hr.functionContext]
    exact hvisited.inFunction _

theorem methods {r s : Resolution} {fs gs : List FunctionDef} (hr : Like r s)
    (h : List.Forall₂ (FunctionDef.Alike l) fs gs) : Like (r.methods fs) (s.methods gs) := by
  cases h with
  | nil => exact hr
  | cons hf hfs =>
    rw [Resolution.methods, Resolution.methods, methodContext_eq hf.name]
    exact methods (function hr _ hf) hfs

end

end Like

/-- Outside of all scopes a program leaves no scope and changes no context. -/
theorem passed_program {r : Resolution} (h : r.Around []) (hs : r.Settled) (body : List Stmt)
    (ho : Stmt.OrdinaryAll body) : Passed r (r.stmts body) [] := by
  induction body generalizing r with
  | nil => exact (Unmoved.refl r).passed h hs
  | cons s rest ih =>
    have hpassed := (stmt_visited h hs s ho.1).1
    rw [ScopeNames.after_nil] at hpassed
    exact hpassed.trans (ih hpassed.around hpassed.settled ho.2)

theorem stmts_append (r : Resolution) (body others : List Stmt) :
    r.stmts (body ++ others) = (r.stmts body).stmts others := by
  induction body generalizing r with
  | nil => rfl
  | cons s rest ih =>
    rw [List.cons_append, stmts, stmts]
    exact ih (r.stmt s)

end Resolution

open Resolution

/-- Resolution finds no fault in the program. -/
def Resolves (statements : List Stmt) : Prop := ∃ found, resolve statements = .ok found

variable {l : Likeness} {body others : List Stmt}

theorem resolves_iff : Resolves body ↔ (start.stmts body).faults = [] := by
  unfold Resolves resolve
  cases hf : (start.stmts body).faults with
  | nil => simp [hf]
  | cons fault rest => simp [hf]

/-- Of two like programs both have faults or none has. -/
theorem resolves_congr (h : StmtsAlike l body others) : Resolves body ↔ Resolves others := by
  rw [resolves_iff, resolves_iff]
  exact ((Like.refl start).stmts h).faults

/-- Programs without faults have none when one follows the other. -/
theorem Resolves.append (ho : Stmt.OrdinaryAll body) (h : Resolves body) (k : Resolves others) :
    Resolves (body ++ others) := by
  have hpassed := passed_program start_around start_settled body ho
  have hscopes : (start.stmts body).scopes = [] := List.forall₂_nil_right_iff.1 hpassed.around.scopes
  have hlike : start.Like (start.stmts body) :=
    ⟨hscopes.symm, hpassed.functionContext.symm, hpassed.classContext.symm,
      iff_of_true rfl (resolves_iff.1 h)⟩
  have hself : StmtsAlike .same others others :=
    Stmt.all_alike_self (fun _ => rfl) others fun _ _ => rfl
  rw [resolves_iff, stmts_append]
  exact (hlike.stmts hself).faults.1 (resolves_iff.1 k)

end Lox
