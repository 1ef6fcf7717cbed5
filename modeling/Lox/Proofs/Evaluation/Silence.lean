import Lox.Proofs.Evaluation.Abiding
import Lox.Proofs.Evaluation.Induction

/-!
# Silent expressions

Only statements print, and an expression comes to a statement only through a function. So where there
is no function but those of the host, an expression leaves the output as it is.
-/

namespace Lox

open Procedure

/-- No function may be declared. -/
def Regime.codeless : Regime := ofCode (fun _ => False) nofun

namespace Run

variable {α β : Type} {m : Machine} {x : Run α} {f : α → Run β} {n : Nat}

/-- However the run of `x` from `m` ends, the output is the one before. -/
def Silent (m : Machine) (x : Run α) : Prop := ∀ after, (x m).state? = some after → after.output = m.output

namespace Silent

theorem exhaust : Silent m (Procedure.exhaust : Run α) := nofun

theorem plain (h : Plain x) (m : Machine) : Silent m x := by
  intro after hafter
  have hsame := h.mapState_eq m
  cases hx : x m with
  | ok a last | error e last =>
    rw [hx] at hafter hsame
    cases hafter
    rw [Outcome.mapState] at hsame
    injection hsame with _ hsame
    rw [← hsame]
    rfl
  | exhausted =>
    rw [hx] at hafter
    cases hafter

/-- Two parts of a run in a row. -/
theorem bind (hx : Silent m x) (hf : ∀ a after, x m = .ok a after → Silent after (f a)) :
    Silent m (x >>= f) := by
  intro last hlast
  rw [bind_apply] at hlast
  cases hx' : x m with
  | ok a after =>
    rw [hx'] at hlast
    exact (hf a after hx' last hlast).trans (hx after (by rw [hx']; rfl))
  | error e after =>
    rw [hx'] at hlast
    exact hx last (by rw [hx']; exact hlast)
  | exhausted =>
    rw [hx'] at hlast
    cases hlast

theorem asCall {line : Nat} (h : Silent { m with callDepth := m.callDepth + 1 } x) :
    Silent m (Run.asCall line x) := by
  intro last hlast
  rw [asCall_apply] at hlast
  split at hlast
  · cases hlast
    rfl
  · rw [afterwards] at hlast
    cases hx : x { m with callDepth := m.callDepth + 1 } with
    | ok a after | error e after =>
      rw [hx] at hlast
      cases hlast
      exact h after (by rw [hx]; rfl)
    | exhausted =>
      rw [hx] at hlast
      cases hlast

end Silent

/-- Evaluation with the bound `n` is silent where there are no functions. -/
structure SilentAt (n : Nat) : Prop where
  evaluate : ∀ {m} (e : Expr), m.Under .codeless → e.Ordinary → Silent m (e.evaluate n)
  evaluateAll : ∀ {m} (es : List Expr), m.Under .codeless → Expr.OrdinaryAll es →
    Silent m (evaluateAll n es)
  apply : ∀ {m} (callee : Value) (arguments : List Value) (line : Nat),
    callee.Under .codeless m.store → Silent m (callee.apply n arguments line)

namespace SilentAt

theorem succ_evaluate (ih : SilentAt n) (e : Expr) (h : m.Under .codeless) (he : e.Ordinary) :
    Silent m (e.evaluate (n + 1)) := by
  cases e with
  | literal value => exact .plain (.pure _) m
  | grouping inner => exact ih.evaluate inner h he
  | unary operator operand line =>
    exact .bind (ih.evaluate operand h he) fun _ after _ => .plain (.located _ _) after
  | binary left operator right line =>
    refine .bind (ih.evaluate left h he.1) fun a after ha => ?_
    have hm := Configuration.Under.after_evaluate h he.1 ha
    exact .bind (ih.evaluate right hm he.2) fun _ later _ => .plain (.located _ _) later
  | logical left operator right =>
    rw [Expr.evaluate]
    refine .bind (ih.evaluate left h he.1) fun a after ha => ?_
    split
    · exact .plain (.pure a) after
    · exact ih.evaluate right (Configuration.Under.after_evaluate h he.1 ha) he.2
  | reference target => exact .plain (.valueOf _ _ _) m
  | assign target value =>
    exact .bind (ih.evaluate value h he.2) fun a after _ =>
      .plain (.bind (.assign target a) fun _ => .pure a) after
  | call callee arguments line =>
    rw [Expr.evaluate]
    refine .bind (ih.evaluate callee h he.1) fun c after hc => ?_
    obtain ⟨hm, -, hcallee⟩ := ((abidesAt .codeless n).evaluate callee h he.1).of_ok hc
    refine .bind (ih.evaluateAll arguments hm he.2) fun values later hvalues => ?_
    obtain ⟨-, hst, -⟩ := ((abidesAt .codeless n).evaluateAll arguments hm he.2).of_ok hvalues
    split
    · exact .plain (.raise _ _) later
    · split
      · exact .asCall (ih.apply c values line (hcallee.mono hst))
      · exact .plain (.raise _ _) later
  | get object name =>
    rw [Expr.evaluate]
    refine .bind (ih.evaluate object h he) fun found after _ => ?_
    split
    · exact .plain (.property _ _) after
    · exact .plain (.raise _ _) after
  | set object name value =>
    rw [Expr.evaluate]
    refine .bind (ih.evaluate object h he.1) fun found after hfound => ?_
    split
    · have hm := Configuration.Under.after_evaluate h he.1 hfound
      exact .bind (ih.evaluate value hm he.2) fun a later _ =>
        .plain (.bind (.setField _ _ a) fun _ => .pure a) later
    · exact .plain (.raise _ _) after
  | this id line => exact .plain (.valueOf _ _ _) m
  | super id line method => exact .plain (.superMethod _ _ _) m

theorem succ_evaluateAll (ih : SilentAt n) (es : List Expr) (h : m.Under .codeless)
    (he : Expr.OrdinaryAll es) : Silent m (Lox.evaluateAll (n + 1) es) := by
  cases es with
  | nil => exact .plain (.pure _) m
  | cons e rest =>
    refine .bind (ih.evaluate e h he.1) fun a after ha => ?_
    have hm := Configuration.Under.after_evaluate h he.1 ha
    exact .bind (ih.evaluateAll rest hm he.2) fun _ later _ => .plain (.pure _) later

/-- A function, or a class with an initializer, is against the regime. -/
theorem succ_apply (callee : Value) (arguments : List Value) (line : Nat)
    (h : callee.Under .codeless m.store) : Silent m (callee.apply (n + 1) arguments line) := by
  cases callee with
  | native f => exact .plain (.callHost _ _ _) m
  | function f => exact absurd h.2 id
  | ofClass c =>
    rw [Value.apply]
    refine .bind (.plain (.instantiate c) m) fun object after _ => ?_
    split
    · next initializer hinit => exact absurd (Class.Every.findMethod? c h hinit).2 id
    · exact .plain (.pure _) after
  | _ => exact .plain (.raise _ _) m

end SilentAt

theorem silentAt (n : Nat) : SilentAt n := by
  induction n with
  | zero => exact ⟨fun _ _ _ => .exhaust, fun _ _ _ => .exhaust, fun _ _ _ _ => .exhaust⟩
  | succ n ih => exact ⟨ih.succ_evaluate, ih.succ_evaluateAll, SilentAt.succ_apply⟩

end Run

end Lox
