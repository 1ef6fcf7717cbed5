import Lox.Proofs.Syntax.Functions
import Lox.Proofs.Syntax.Likeness

/-!
# Lines of trees

Where the lines of a tree are, as the likeness of the tree with itself, and which expressions have no
line of their own.
-/

namespace Lox

/-- Any node numbers, on lines that `ρ` relates. -/
def Likeness.lines (ρ : Nat → Nat → Prop) : Likeness := ⟨fun _ _ => True, ρ⟩

/-- Any node numbers, on lines with the property `P`. -/
abbrev Likeness.within (P : Nat → Prop) : Likeness := .lines fun line _ => P line

variable {P : Nat → Prop}

/-- All lines of the expression have the property `P`. -/
abbrev Expr.Within (P : Nat → Prop) (e : Expr) : Prop := e.Alike (.within P) e

/-- All lines of the statement have the property `P`. -/
abbrev Stmt.Within (P : Nat → Prop) (s : Stmt) : Prop := s.Alike (.within P) s

abbrev Stmt.WithinAll (P : Nat → Prop) (body : List Stmt) : Prop := StmtsAlike (.within P) body body

abbrev FunctionDef.Within (P : Nat → Prop) (f : FunctionDef) : Prop := f.Alike (.within P) f

theorem FunctionDef.Within.body {f : FunctionDef} (h : f.Within P) : Stmt.WithinAll P f.body := by
  cases h with
  | intro _ _ body => exact body

namespace Stmt

mutual

theorem Within.ownFunctions {s : Stmt} (h : s.Within P) : ∀ f ∈ s.ownFunctions, f.Within P := by
  match s with
  | block body =>
    cases h with
    | block hbody => exact WithinAll.ownFunctions hbody
  | conditional _ thenBranch none =>
    cases h with
    | conditional _ hthen =>
      rw [Stmt.ownFunctions]
      exact Within.ownFunctions hthen
  | conditional _ thenBranch (some elseBranch) =>
    cases h with
    | conditional _ hthen helse =>
      cases helse with
      | some helse =>
        rw [Stmt.ownFunctions, List.forall_mem_append]
        exact ⟨Within.ownFunctions hthen, Within.ownFunctions helse⟩
  | whileLoop _ body =>
    cases h with
    | whileLoop _ hbody =>
      rw [Stmt.ownFunctions]
      exact Within.ownFunctions hbody
  | function declaration =>
    cases h with
    | function hdeclaration =>
      intro f hf
      rw [List.mem_singleton.1 hf]
      exact hdeclaration
  | classDef _ _ methods =>
    cases h with
    | classDef _ _ hmethods => exact fun f => List.forall₂_same.1 hmethods f
  | expression _ | print _ | var _ _ | ret _ _ => exact nofun

theorem WithinAll.ownFunctions {body : List Stmt} (h : WithinAll P body) :
    ∀ f ∈ ownFunctionsAll body, f.Within P := by
  match body with
  | [] => exact nofun
  | s :: rest =>
    cases h with
    | cons hs hrest =>
      rw [ownFunctionsAll, List.forall_mem_append]
      exact ⟨Within.ownFunctions hs, WithinAll.ownFunctions hrest⟩

end

end Stmt

/-! ### Expressions without a line -/

namespace Expr

/-- A literal, in parentheses or as the first operand of `and` and `or`. -/
inductive Lineless : Expr → Prop where
  | literal (value : Literal) : Lineless (.literal value)
  | grouping {inner : Expr} (h : Lineless inner) : Lineless (.grouping inner)
  | logical {left : Expr} (h : Lineless left) (operator : LogicalOperator) (right : Expr) :
      Lineless (.logical left operator right)

theorem lineless_of_line? {e : Expr} (h : e.line? = none) : e.Lineless := by
  match e with
  | .literal value => exact .literal value
  | .grouping inner => exact .grouping (lineless_of_line? (e := inner) h)
  | .logical left operator right => exact .logical (lineless_of_line? (e := left) h) operator right

theorem Lineless.line?_eq {e : Expr} (h : e.Lineless) : e.line? = none := by
  induction h with
  | literal => rfl
  | grouping _ ih => exact ih
  | logical _ _ _ ih => exact ih

/-- The line of an expression is one of its lines. -/
theorem Within.line? {e : Expr} (h : e.Within P) {line : Nat} (hline : e.line? = some line) :
    P line := by
  match e with
  | .literal _ => cases hline
  | .grouping inner =>
    cases h with
    | grouping hinner => exact Within.line? hinner hline
  | .logical left _ _ =>
    cases h with
    | logical hleft => exact Within.line? hleft hline
  | .unary .. | .binary .. | .call .. =>
    cases hline
    cases h
    assumption
  | .this .. =>
    cases hline
    cases h with
    | this _ hl => exact hl
  | .super .. =>
    cases hline
    cases h with
    | super _ hl => exact hl
  | .reference _ =>
    cases hline
    cases h with
    | reference htarget => exact htarget.name.line
  | .assign .. =>
    cases hline
    cases h with
    | assign htarget => exact htarget.name.line
  | .get .. =>
    cases hline
    cases h with
    | get _ hname => exact hname.line
  | .set .. =>
    cases hline
    cases h with
    | set _ hname => exact hname.line

end Expr

end Lox
