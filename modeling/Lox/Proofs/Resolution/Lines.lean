import Lox.Proofs.Resolution.Violations
import Lox.Proofs.Syntax.Lines

/-!
# Lines of the resolver's diagnostics

Every site of a tree is on a line of the tree, so what resolution reports is on lines of the program.
-/

namespace Lox

variable {P : Nat → Prop}

mutual

/-- The sites of an expression are on its lines. -/
theorem Expr.Within.sites {e : Expr} (h : e.Within P) (around : Surroundings) :
    ∀ site ∈ e.sites around, P site.line := by
  match e with
  | .literal _ => exact nofun
  | .unary .. =>
    cases h with
    | unary hoperand => exact Within.sites hoperand around
  | .binary .. =>
    cases h with
    | binary hleft hright =>
      exact List.forall_mem_append.2 ⟨Within.sites hleft around, Within.sites hright around⟩
  | .logical .. =>
    cases h with
    | logical hleft hright =>
      exact List.forall_mem_append.2 ⟨Within.sites hleft around, Within.sites hright around⟩
  | .grouping _ =>
    cases h with
    | grouping hinner => exact Within.sites hinner around
  | .reference _ =>
    cases h with
    | reference htarget => exact List.forall_mem_singleton.2 htarget.name.line
  | .assign .. =>
    cases h with
    | assign _ hvalue => exact Within.sites hvalue around
  | .call .. =>
    cases h with
    | call hcallee harguments =>
      exact List.forall_mem_append.2 ⟨Within.sites hcallee around, Expr.within_sitesAll harguments around⟩
  | .get .. =>
    cases h with
    | get hobject => exact Within.sites hobject around
  | .set .. =>
    cases h with
    | set hobject _ hvalue =>
      exact List.forall_mem_append.2 ⟨Within.sites hvalue around, Within.sites hobject around⟩
  | .this .. =>
    cases h with
    | this _ hline => exact List.forall_mem_singleton.2 hline
  | .super .. =>
    cases h with
    | super _ hline => exact List.forall_mem_singleton.2 hline

theorem Expr.within_sitesAll {es : List Expr} (h : List.Forall₂ (Expr.Alike (.within P)) es es)
    (around : Surroundings) : ∀ site ∈ Expr.sitesAll around es, P site.line := by
  match es with
  | [] => exact nofun
  | e :: rest =>
    cases h with
    | cons he hrest =>
      exact List.forall_mem_append.2 ⟨Within.sites he around, Expr.within_sitesAll hrest around⟩

end

theorem Expr.within_sites? {value : Option Expr} (h : Option.Rel (Expr.Alike (.within P)) value value)
    (around : Surroundings) : ∀ site ∈ Expr.sites? around value, P site.line := by
  cases value with
  | none => exact nofun
  | some e =>
    cases h with
    | some he => exact Expr.Within.sites he around

theorem Identifier.within_sites {params : List Identifier}
    (h : List.Forall₂ (Identifier.Alike (.within P)) params params) (around : Surroundings) :
    ∀ site ∈ Identifier.sites around params, P site.line := by
  induction params generalizing around with
  | nil => exact nofun
  | cons param rest ih =>
    cases h with
    | cons hparam hrest => exact List.forall_mem_cons.2 ⟨hparam.line, ih hrest _⟩

theorem Reference.within_sites? {superclass : Option Reference}
    (h : Option.Rel (Reference.Alike (.within P)) superclass superclass) (around : Surroundings)
    (name : String) : ∀ site ∈ Reference.sites? around name superclass, P site.line := by
  cases superclass with
  | none => exact nofun
  | some target =>
    cases h with
    | some htarget =>
      exact List.forall_mem_cons.2 ⟨htarget.name.line, List.forall_mem_singleton.2 htarget.name.line⟩

mutual

/-- The sites of a statement are on its lines. -/
theorem Stmt.Within.sites {s : Stmt} (h : s.Within P) (around : Surroundings) :
    ∀ site ∈ s.sites around, P site.line := by
  match s with
  | .expression _ =>
    cases h with
    | expression hvalue => exact Expr.Within.sites hvalue around
  | .print _ =>
    cases h with
    | print hvalue => exact Expr.Within.sites hvalue around
  | .var .. =>
    cases h with
    | var hname hinitial => exact List.forall_mem_cons.2 ⟨hname.line, Expr.within_sites? hinitial _⟩
  | .block _ =>
    cases h with
    | block hbody => exact Stmt.WithinAll.sites hbody _
  | .conditional _ _ none =>
    cases h with
    | conditional hcondition hthen =>
      exact List.forall_mem_append.2
        ⟨Expr.Within.sites hcondition around, Stmt.Within.sites hthen around⟩
  | .conditional _ _ (some _) =>
    cases h with
    | conditional hcondition hthen helse =>
      cases helse with
      | some helse =>
        exact List.forall_mem_append.2 ⟨List.forall_mem_append.2
          ⟨Expr.Within.sites hcondition around, Stmt.Within.sites hthen around⟩,
          Stmt.Within.sites helse around⟩
  | .whileLoop .. =>
    cases h with
    | whileLoop hcondition hbody =>
      exact List.forall_mem_append.2
        ⟨Expr.Within.sites hcondition around, Stmt.Within.sites hbody around⟩
  | .function _ =>
    cases h with
    | function hdeclaration =>
      exact List.forall_mem_cons.2
        ⟨hdeclaration.name.line, FunctionDef.Within.sites hdeclaration .function _⟩
  | .ret .. =>
    cases h with
    | ret hline hvalue => exact List.forall_mem_cons.2 ⟨hline, Expr.within_sites? hvalue around⟩
  | .classDef .. =>
    cases h with
    | classDef hname hsuper hmethods =>
      exact List.forall_mem_cons.2 ⟨hname.line, List.forall_mem_append.2
        ⟨Reference.within_sites? hsuper _ _, FunctionDef.within_methodSites hmethods _⟩⟩

theorem Stmt.WithinAll.sites {body : List Stmt} (h : Stmt.WithinAll P body) (around : Surroundings) :
    ∀ site ∈ Stmt.sitesAll around body, P site.line := by
  match body with
  | [] => exact nofun
  | s :: rest =>
    cases h with
    | cons hs hrest =>
      exact List.forall_mem_append.2 ⟨Stmt.Within.sites hs around, Stmt.WithinAll.sites hrest _⟩

theorem FunctionDef.Within.sites {f : FunctionDef} (h : f.Within P) (role : FunctionRole)
    (around : Surroundings) : ∀ site ∈ Stmt.functionSites role around f, P site.line := by
  match f with
  | ⟨_, _, _⟩ =>
    cases h with
    | intro _ hparams hbody =>
      exact List.forall_mem_append.2 ⟨Identifier.within_sites hparams _, Stmt.WithinAll.sites hbody _⟩

theorem FunctionDef.within_methodSites {methods : List FunctionDef}
    (h : List.Forall₂ (FunctionDef.Alike (.within P)) methods methods) (around : Surroundings) :
    ∀ site ∈ Stmt.methodSites around methods, P site.line := by
  match methods with
  | [] => exact nofun
  | f :: rest =>
    cases h with
    | cons hf hrest =>
      exact List.forall_mem_append.2
        ⟨FunctionDef.Within.sites hf .method around, FunctionDef.within_methodSites hrest around⟩

end

/-- What resolution reports is on lines of the program. -/
theorem within_of_resolve {body : List Stmt} {faults : List Diagnostic} (ho : Stmt.OrdinaryAll body)
    (h : Stmt.WithinAll P body) (herror : resolve body = .error faults) :
    ∀ fault ∈ faults, P fault.line := by
  have hfaults : faults = (Stmt.sitesAll [] body).flatMap Site.violations := by
    rw [← faults_eq_violations ho]
    unfold resolve at herror
    simp only at herror
    split at herror
    · cases herror
    · exact (Except.error.inj herror).symm
  intro fault hmem
  rw [hfaults] at hmem
  obtain ⟨site, hsite, hfault⟩ := List.mem_flatMap.1 hmem
  obtain ⟨rule, -, rfl⟩ := List.mem_map.1 hfault
  exact h.sites [] site hsite

end Lox
