import Lox.Proofs.Evaluation.Abiding
import Lox.Proofs.Evaluation.Induction
import Lox.Proofs.Evaluation.Restoring
import Lox.Proofs.Syntax.Loops

/-!
# Evaluation without loops ends

A program can call any function that it has stored anywhere, so no recursion on its text shows that
it ends. What shows it is the number of calls that may still be nested, and then the text: a call
has one less of them, and all else that evaluation comes to by itself is a smaller part of the tree,
if no function that there is in the machine has a loop.
-/

namespace Lox

open Procedure

/-! ### Runs that end -/

namespace Run

variable {α β : Type} {m : Machine} {x : Nat → Run α} {f : α → Nat → Run β}

/-- From the machine `m` the run ends, and in the same way at every bound that is large enough. -/
def Settles (x : Nat → Run α) (m : Machine) : Prop :=
  ∃ outcome, outcome ≠ .exhausted ∧ ∃ n, ∀ k, n ≤ k → x k m = outcome

namespace Settles

theorem of_plain {x : Run α} (h : Plain x) (m : Machine) : Settles (fun _ => x) m :=
  ⟨x m, h.ends m, 0, fun _ _ => rfl⟩

theorem write (text : String) (line : Nat) (m : Machine) :
    Settles (fun _ => Run.write text line) m := by
  refine ⟨Run.write text line m, ?_, 0, fun _ _ => rfl⟩
  unfold Run.write
  split <;> exact nofun

theorem of_succ (h : Settles (fun n => x (n + 1)) m) : Settles x m := by
  obtain ⟨outcome, hends, n, hsame⟩ := h
  refine ⟨outcome, hends, n + 1, fun k hk => ?_⟩
  obtain ⟨k, rfl⟩ := Nat.exists_eq_add_of_le' (Nat.le_trans (Nat.le_add_left 1 n) hk)
  exact hsame k (Nat.le_of_succ_le_succ hk)

/-- A run that ends, and after it one that ends. -/
theorem bind (hx : Settles x m)
    (hf : ∀ n a after, x n m = .ok a after → Settles (f a) after) :
    Settles (fun n => x n >>= fun a => f a n) m := by
  obtain ⟨outcome, hends, n, hsame⟩ := hx
  cases outcome with
  | exhausted => exact absurd rfl hends
  | error e after => exact ⟨.error e after, nofun, n, fun k hk => bind_apply_of_error (hsame k hk)⟩
  | ok a after =>
    obtain ⟨last, hlast, l, hlater⟩ := hf n a after (hsame n (Nat.le_refl n))
    refine ⟨last, hlast, max n l, fun k hk => ?_⟩
    have hfirst := hsame k (Nat.le_trans (Nat.le_max_left n l) hk)
    exact (bind_apply_of_ok hfirst).trans (hlater k (Nat.le_trans (Nat.le_max_right n l) hk))

/-- A run with a change before it and after it. -/
theorem of_afterwards {start : Machine} {g : Machine → Machine} {y : Nat → Run α}
    (hy : ∀ n, y n m = afterwards g (x n) start) (h : Settles x start) : Settles y m := by
  obtain ⟨outcome, hends, n, hsame⟩ := h
  refine ⟨outcome.mapState g, ?_, n, fun k hk => ?_⟩
  · cases outcome with
    | exhausted => exact absurd rfl hends
    | ok a after | error e after => exact nofun
  · rw [hy, ← hsame k hk]
    rfl

theorem inEnvironment {env : Environment} (h : Settles x { m with environment := env }) :
    Settles (fun n => Run.inEnvironment env (x n)) m :=
  of_afterwards (fun n => inEnvironment_apply env (x n) m) h

/-- A call is turned down or has one call less inside it. -/
theorem asCall {line : Nat}
    (h : m.callDepth < m.maxCallDepth → Settles x { m with callDepth := m.callDepth + 1 }) :
    Settles (fun n => Run.asCall line (x n)) m := by
  by_cases hfull : m.maxCallDepth ≤ m.callDepth
  · exact ⟨.error ⟨.stackOverflow, line⟩ m, nofun, 0, fun n _ =>
      (asCall_apply line (x n) m).trans (if_pos hfull)⟩
  · exact of_afterwards (fun n => (asCall_apply line (x n) m).trans (if_neg hfull))
      (h (Nat.lt_of_not_le hfull))

end Settles

end Run

/-! ### Calls to spare -/

/-- There are only functions without loops, and `d` more calls may be nested. -/
structure Machine.Spare (d : Nat) (m : Machine) : Prop where
  under : m.Under .loopFree
  calls : m.callDepth + d = m.maxCallDepth

/-- A run that ends and leaves as many calls to spare. -/
structure Run.Ends {α : Type} (m : Machine) (x : Nat → Run α) (P : α → Store Value → Prop) :
    Prop where
  settles : Settles x m
  abides : ∀ n, Abides .loopFree m (x n) P
  restores : ∀ n, Restores (x n)

section

open Run

variable {α β : Type} {d : Nat} {m : Machine} {x : Nat → Run α} {f : α → Nat → Run β}
  {P : α → Store Value → Prop}

theorem Machine.Spare.of_ok (h : m.Spare d) {x : Run α} {a : α} {after : Machine}
    (habides : Abides .loopFree m x P) (hrestores : Restores x) (ho : x m = .ok a after) :
    after.Spare d ∧ m.store.Retains after.store ∧ P a after.store := by
  obtain ⟨hunder, hretains, ha⟩ := habides.of_ok ho
  have hrestored := hrestores m after (by rw [ho]; rfl)
  exact ⟨⟨hunder, by rw [hrestored.callDepth, hrestored.maxCallDepth, h.calls]⟩, hretains, ha⟩

theorem Run.Ends.bind (hx : Ends m x P) (h : m.Spare d)
    (hf : ∀ a after, after.Spare d → m.store.Retains after.store → P a after.store →
      Settles (f a) after) : Settles (fun n => x n >>= fun a => f a n) m := by
  refine hx.settles.bind fun n a after ho => ?_
  obtain ⟨hspare, hretains, ha⟩ := h.of_ok (hx.abides n) (hx.restores n) ho
  exact hf a after hspare hretains ha

theorem Run.Ends.of_plain {x : Run α} (h : Plain x) (habides : Abides .loopFree m x P)
    (hrestores : Restores x) : Ends m (fun _ => x) P :=
  ⟨.of_plain h m, fun _ => habides, fun _ => hrestores⟩

/-- An expression that ends, and after it a run that ends. -/
theorem Machine.Spare.bind_evaluate {e : Expr} {f : Value → Nat → Run β} (h : m.Spare d)
    (he : e.Ordinary) (hsettles : Settles (fun n => e.evaluate n) m)
    (hf : ∀ a after, after.Spare d → m.store.Retains after.store → a.Under .loopFree after.store →
      Settles (f a) after) : Settles (fun n => e.evaluate n >>= fun a => f a n) m :=
  Ends.bind ⟨hsettles, fun n => (abidesAt _ n).evaluate e h.under he,
    fun n => (runsRestore n).evaluate e⟩ h hf

/-- A statement that ends, and after it a run that ends. -/
theorem Machine.Spare.bind_execute {s : Stmt} {f : Completion → Nat → Run β} (h : m.Spare d)
    (hs : s.Under .loopFree) (hsettles : Settles (fun n => s.execute n) m)
    (hf : ∀ completion after, after.Spare d → Settles (f completion) after) :
    Settles (fun n => s.execute n >>= fun completion => f completion n) m :=
  Ends.bind ⟨hsettles, fun n => (abidesAt _ n).execute s h.under hs,
    fun n => (runsRestore n).execute s⟩ h fun completion after hm _ _ => hf completion after hm

end

/-! ### Expressions and statements -/

/-- Calls end, with `d` more that may be nested inside them. -/
def CallsSettle (d : Nat) : Prop :=
  ∀ m (callee : Value) (arguments : List Value) (line : Nat), m.Spare d →
    callee.Under .loopFree m.store → (∀ argument ∈ arguments, argument.Under .loopFree m.store) →
    Run.Settles (fun n => callee.apply n arguments line) m

/-- The calls that are nested in one with `d` more to spare end. -/
def InnerCallsSettle (d : Nat) : Prop := ∀ c, d = c + 1 → CallsSettle c

namespace InnerCallsSettle

open Run

variable {d : Nat}

theorem asCall (hcalls : InnerCallsSettle d) {m : Machine} {callee : Value} {arguments : List Value}
    (line : Nat) (h : m.Spare d) (hc : callee.Under .loopFree m.store)
    (ha : ∀ argument ∈ arguments, argument.Under .loopFree m.store) :
    Settles (fun n => Run.asCall line (callee.apply n arguments line)) m := by
  refine .asCall fun hroom => ?_
  obtain ⟨c, rfl⟩ : ∃ c, d = c + 1 :=
    Nat.exists_eq_succ_of_ne_zero fun hd => by
      have hfull := h.calls
      omega
  refine hcalls c rfl _ callee arguments line ⟨h.under.of_eq rfl rfl rfl, ?_⟩ hc ha
  show m.callDepth + 1 + c = m.maxCallDepth
  rw [← h.calls, Nat.add_assoc, Nat.add_comm 1 c]

mutual

theorem evaluate (hcalls : InnerCallsSettle d) {m : Machine} (e : Expr) (h : m.Spare d)
    (he : e.Ordinary) :
    Settles (fun n => e.evaluate n) m := by
  refine .of_succ ?_
  match e with
  | .literal value =>
    simp only [Expr.evaluate]
    exact .of_plain (.pure _) m
  | .grouping inner =>
    simp only [Expr.evaluate]
    exact hcalls.evaluate inner h he
  | .unary operator operand line =>
    simp only [Expr.evaluate]
    refine h.bind_evaluate he (hcalls.evaluate operand h he) fun a after _ _ _ => ?_
    exact .of_plain (.located _ _) after
  | .binary left operator right line =>
    simp only [Expr.evaluate]
    refine h.bind_evaluate he.1 (hcalls.evaluate left h he.1) fun a after hm _ _ => ?_
    refine hm.bind_evaluate he.2 (hcalls.evaluate right hm he.2) fun b later _ _ _ => ?_
    exact .of_plain (.located _ _) later
  | .logical left operator right =>
    simp only [Expr.evaluate]
    refine h.bind_evaluate he.1 (hcalls.evaluate left h he.1) fun a after hm _ _ => ?_
    cases operator.decides a with
    | true => exact .of_plain (.pure a) after
    | false => exact hcalls.evaluate right hm he.2
  | .reference target =>
    simp only [Expr.evaluate]
    exact .of_plain (.valueOf _ _ _) m
  | .assign target value =>
    simp only [Expr.evaluate]
    refine h.bind_evaluate he.2 (hcalls.evaluate value h he.2) fun a after _ _ _ => ?_
    exact .of_plain (.bind (.assign _ _) fun _ => .pure _) after
  | .call callee arguments line =>
    simp only [Expr.evaluate]
    refine h.bind_evaluate he.1 (hcalls.evaluate callee h he.1) fun c after hm _ hc => ?_
    have harguments : Ends after (fun n => Lox.evaluateAll n arguments) fun values store =>
        ∀ value ∈ values, value.Under .loopFree store :=
      ⟨hcalls.evaluateAll arguments hm he.2,
        fun n => (abidesAt _ n).evaluateAll arguments hm.under he.2,
        fun n => (runsRestore n).evaluateAll arguments⟩
    refine harguments.bind hm fun values later hl hretains hvalues => ?_
    cases c.arity? with
    | none => exact .of_plain (.raise _ _) later
    | some arity =>
      by_cases harity : values.length = arity
      · simp only [if_pos harity]
        exact hcalls.asCall line hl (hc.mono hretains) hvalues
      · simp only [if_neg harity]
        exact .of_plain (.raise _ _) later
  | .get object name =>
    simp only [Expr.evaluate]
    refine h.bind_evaluate he (hcalls.evaluate object h he) fun a after _ _ _ => ?_
    cases a with
    | ofInstance object => exact .of_plain (.property _ _) after
    | _ => exact .of_plain (.raise _ _) after
  | .set object name value =>
    simp only [Expr.evaluate]
    refine h.bind_evaluate he.1 (hcalls.evaluate object h he.1) fun a after hm _ _ => ?_
    cases a with
    | ofInstance object =>
      refine hm.bind_evaluate he.2 (hcalls.evaluate value hm he.2) fun b later _ _ _ => ?_
      exact .of_plain (.bind (.setField _ _ _) fun _ => .pure _) later
    | _ => exact .of_plain (.raise _ _) after
  | .this id line =>
    simp only [Expr.evaluate]
    exact .of_plain (.valueOf _ _ _) m
  | .super id line method =>
    simp only [Expr.evaluate]
    exact .of_plain (.superMethod _ _ _) m

theorem evaluateAll (hcalls : InnerCallsSettle d) {m : Machine} (es : List Expr) (h : m.Spare d)
    (he : Expr.OrdinaryAll es) :
    Settles (fun n => Lox.evaluateAll n es) m := by
  refine .of_succ ?_
  match es with
  | [] =>
    simp only [Lox.evaluateAll]
    exact .of_plain (.pure _) m
  | e :: rest =>
    simp only [Lox.evaluateAll]
    refine h.bind_evaluate he.1 (hcalls.evaluate e h he.1) fun a after hm _ _ => ?_
    refine (hcalls.evaluateAll rest hm he.2).bind fun n values later _ => ?_
    exact .of_plain (.pure _) later

end

theorem initialValue (hcalls : InnerCallsSettle d) {m : Machine} {value : Option Expr}
    (h : m.Spare d) (he : ∀ e ∈ value, e.Ordinary) :
    Settles (fun n => Run.initialValue n value) m := by
  cases value with
  | none => exact .of_plain (.pure _) m
  | some e => exact hcalls.evaluate e h (he e rfl)

mutual

theorem execute (hcalls : InnerCallsSettle d) {m : Machine} (s : Stmt) (h : m.Spare d)
    (ho : s.Ordinary) (hl : s.LoopFree) : Settles (fun n => s.execute n) m := by
  refine .of_succ ?_
  match s with
  | .expression value =>
    simp only [Stmt.execute]
    refine h.bind_evaluate ho (hcalls.evaluate value h ho) fun _ after _ _ _ => ?_
    exact .of_plain (.pure _) after
  | .print value =>
    simp only [Stmt.execute]
    refine h.bind_evaluate ho (hcalls.evaluate value h ho) fun a after _ _ _ => ?_
    refine (Settles.write _ _ after).bind fun _ _ later _ => ?_
    refine (Settles.write _ _ later).bind fun _ _ last _ => ?_
    exact .of_plain (.pure _) last
  | .var name initial =>
    simp only [Stmt.execute_var]
    refine (hcalls.initialValue h ho.2).bind fun _ a after _ => ?_
    exact .of_plain (.bind (.define _ _) fun _ => .pure _) after
  | .block body =>
    simp only [Stmt.execute]
    refine (Settles.of_plain (.read fun _ _ _ _ => rfl) m).bind fun _ env after hread => ?_
    cases hread
    refine (Settles.of_plain (.newScope _ ∅) m).bind fun _ frame after hframe => ?_
    have hafter := ((AbidesAt.blockFrame h.under _).of_ok hframe).1
    cases hframe
    exact .inEnvironment (hcalls.executeAll body ⟨hafter.of_eq rfl rfl rfl, h.calls⟩ ho hl)
  | .conditional condition thenBranch elseBranch =>
    have hcondition : condition.Ordinary := by cases elseBranch <;> exact ho.1
    simp only [Stmt.execute_conditional]
    refine h.bind_evaluate hcondition (hcalls.evaluate condition h hcondition)
      fun a after hm _ _ => ?_
    match elseBranch, a.isTruthy with
    | none, true => exact hcalls.execute thenBranch hm ho.2.2 hl
    | none, false => exact .of_plain (.pure _) after
    | some elseBranch, true => exact hcalls.execute thenBranch hm ho.2.1.2 hl.1
    | some elseBranch, false => exact hcalls.execute elseBranch hm ho.2.2.2 hl.2
  | .whileLoop _ _ => exact hl.elim
  | .function declaration =>
    simp only [Stmt.execute]
    exact .of_plain (.bind (.read fun _ _ _ _ => rfl) fun _ => .bind (.freshIdentity 1) fun _ =>
      .bind (.define _ _) fun _ => .pure _) m
  | .ret line value =>
    simp only [Stmt.execute_ret]
    refine (hcalls.initialValue h ho).bind fun _ a after _ => ?_
    exact .of_plain (.pure _) after
  | .classDef name superclass methods =>
    simp only [Stmt.execute_classDef]
    exact .of_plain (.bind (.superclass? superclass) fun c => .bind (.define _ _) fun _ =>
      .bind (.methodClosure c) fun _ => .bind (.freshIdentity _) fun _ =>
      .bind (.define _ _) fun _ => .pure _) m

theorem executeAll (hcalls : InnerCallsSettle d) {m : Machine} (body : List Stmt) (h : m.Spare d)
    (ho : Stmt.OrdinaryAll body) (hl : Stmt.LoopFreeAll body) :
    Settles (fun n => Lox.executeAll n body) m := by
  refine .of_succ ?_
  match body with
  | [] =>
    simp only [Lox.executeAll]
    exact .of_plain (.pure _) m
  | s :: rest =>
    simp only [Lox.executeAll]
    refine h.bind_execute (Regime.under_loopFree ho.1 hl.1) (hcalls.execute s h ho.1 hl.1)
      fun completion after hm => ?_
    cases completion with
    | returned value => exact .of_plain (.pure _) after
    | normal => exact hcalls.executeAll rest hm ho.2 hl.2

end

/-! ### Calls -/

theorem enter (hcalls : InnerCallsSettle d) {m : Machine} (f : Function) {arguments : List Value}
    (line : Nat) (h : m.Spare d) (hf : Regime.loopFree.callable f m.store)
    (ha : ∀ argument ∈ arguments, argument.Under .loopFree m.store) :
    Settles (fun n => f.enter n arguments line) m := by
  refine .of_succ ?_
  simp only [Function.enter_succ]
  have hbody : Settles (fun n => callBody n f arguments) m := by
    refine (Settles.of_plain (.newScope f.closure _) m).bind fun _ frame after hframe => ?_
    have hafter := ((AbidesAt.frame h.under f ha).of_ok hframe).1
    cases hframe
    exact .inEnvironment (hcalls.executeAll _ ⟨hafter.of_eq rfl rfl rfl, h.calls⟩
      (Regime.loopFree.ordinary hf).body (Regime.loopFree_body hf))
  exact hbody.bind fun _ completion after _ => .of_plain (.callResult _ _ _) after

theorem apply (hcalls : InnerCallsSettle d) : CallsSettle d := by
  intro m callee arguments line h hc ha
  refine .of_succ ?_
  cases callee with
  | native f =>
    simp only [Value.apply]
    exact .of_plain (.callHost _ _ _) m
  | function f =>
    simp only [Value.apply]
    exact hcalls.enter f line h hc ha
  | ofClass c =>
    simp only [Value.apply]
    refine (Ends.of_plain (.instantiate c) (Abides.instantiate h.under hc) fun _ =>
      .instantiate c).bind h fun object after hm hretains hobject => ?_
    cases hinit : c.initializer? with
    | none => exact .of_plain (.pure _) after
    | some initializer =>
      have hdeclaration := Class.Every.findMethod? c hc hinit
      refine (Ends.of_plain (.bindMethod _ _) (Abides.bindMethod hm.under hdeclaration hobject)
        fun _ => .bindMethod _ _).bind hm fun bound later hl hretains' hbound => ?_
      refine (hcalls.enter bound line hl hbound.1 fun argument hmem =>
        (ha argument hmem).mono (hretains.trans hretains')).bind fun _ _ last _ => ?_
      exact .of_plain (.pure _) last
  | _ =>
    simp only [Value.apply]
    exact .of_plain (.raise _ _) m

end InnerCallsSettle

/-- By induction on the number of calls that may still be nested. -/
theorem innerCallsSettle (d : Nat) : InnerCallsSettle d := by
  induction d with
  | zero => exact nofun
  | succ d ih =>
    intro c hc
    cases hc
    exact ih.apply

/-- A program without loops ends, however its functions call each other. -/
theorem settles_runProgram {d : Nat} {m : Machine} (h : m.Spare d) {body : List Stmt}
    (ho : Stmt.OrdinaryAll body) (hl : Stmt.LoopFreeAll body) :
    Run.Settles (fun n => runProgram n body) m := by
  induction body generalizing m with
  | nil => exact .of_plain (.pure _) m
  | cons s rest ih =>
    exact h.bind_execute (Regime.under_loopFree ho.1 hl.1)
      ((innerCallsSettle d).execute s h ho.1 hl.1) fun _ after hm => ih hm ho.2 hl.2

end Lox
