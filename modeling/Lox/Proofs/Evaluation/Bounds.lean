import Lox.Proofs.Evaluation.Steps

/-!
# Larger bounds

A run that ends goes the same way at every larger bound. So evaluation can be spoken of without a
bound: `Run.unbounded` is how it ends at every bound that is large enough, and it is exhausted if the
run never ends. Without bounds the forms of the syntax are put together by plain equations.
-/

namespace Lox

open Procedure

namespace Run

variable {α β : Type}

/-- Runs `next` after `x`, unless `x` returns. -/
def andThen (x next : Run Completion) : Run Completion := do
  match ← x with
  | .returned value => return .returned value
  | .normal => next

/-- Wherever `x` ends, `y` ends in the same way. -/
def Below (x y : Run α) : Prop := ∀ m, x m ≠ .exhausted → y m = x m

namespace Below

variable {x y z : Run α} {f g : α → Run β}

theorem refl (x : Run α) : x.Below x := fun _ _ => rfl

theorem trans (h : x.Below y) (k : y.Below z) : x.Below z := by
  intro m hx
  have hy := h m hx
  rw [k m (hy ▸ hx), hy]

theorem exhaust (x : Run α) : Below Procedure.exhaust x := fun _ h => absurd rfl h

theorem bind (h : x.Below y) (hfg : ∀ a, (f a).Below (g a)) : (x >>= f).Below (y >>= g) := by
  intro m hends
  cases hx : x m with
  | exhausted => exact absurd (bind_apply_of_exhausted hx) hends
  | error e after =>
    have hy : y m = .error e after := (h m (by rw [hx]; exact nofun)).trans hx
    rw [bind_apply_of_error hx, bind_apply_of_error hy]
  | ok a after =>
    have hy : y m = .ok a after := (h m (by rw [hx]; exact nofun)).trans hx
    rw [bind_apply_of_ok hx] at hends
    rw [bind_apply_of_ok hx, bind_apply_of_ok hy]
    exact hfg a after hends

theorem andThen {x y next others : Run Completion} (h : x.Below y) (hnext : next.Below others) :
    (x.andThen next).Below (y.andThen others) := by
  refine h.bind fun completion => ?_
  cases completion with
  | returned value => exact refl _
  | normal => exact hnext

/-- A change of the machine after the run. -/
theorem afterwards (h : x.Below y) (k : Machine → Machine) :
    Below (Procedure.afterwards k x) (Procedure.afterwards k y) := by
  intro m hends
  have hx : x m ≠ .exhausted := fun he => hends (afterwards_of_exhausted he)
  rw [Procedure.afterwards, Procedure.afterwards, h m hx]

theorem inEnvironment (env : Environment) (h : x.Below y) :
    Below (Run.inEnvironment env x) (Run.inEnvironment env y) :=
  bind (refl _) fun _ => bind (refl _) fun _ => h.afterwards _

theorem asCall (line : Nat) (h : x.Below y) : Below (Run.asCall line x) (Run.asCall line y) := by
  refine bind (refl _) fun limit => bind (refl _) fun calls => ?_
  split
  · exact refl _
  · exact bind (refl _) fun _ => h.afterwards _

end Below

/-- What ends with the bound `n` ends in the same way with the next one. -/
structure RisesAt (n : Nat) : Prop where
  evaluate : ∀ e : Expr, (e.evaluate n).Below (e.evaluate (n + 1))
  evaluateAll : ∀ es, (evaluateAll n es).Below (evaluateAll (n + 1) es)
  apply : ∀ (callee : Value) arguments line,
    (callee.apply n arguments line).Below (callee.apply (n + 1) arguments line)
  enter : ∀ (f : Function) arguments line,
    (f.enter n arguments line).Below (f.enter (n + 1) arguments line)
  execute : ∀ s : Stmt, (s.execute n).Below (s.execute (n + 1))
  executeAll : ∀ body, (executeAll n body).Below (executeAll (n + 1) body)
  repeatWhile : ∀ condition body,
    (repeatWhile n condition body).Below (repeatWhile (n + 1) condition body)

namespace RisesAt

variable {n : Nat}

theorem zero : RisesAt 0 where
  evaluate _ := .exhaust _
  evaluateAll _ := .exhaust _
  apply _ _ _ := .exhaust _
  enter _ _ _ := .exhaust _
  execute _ := .exhaust _
  executeAll _ := .exhaust _
  repeatWhile _ _ := .exhaust _

theorem succ_evaluate (ih : RisesAt n) (e : Expr) :
    (e.evaluate (n + 1)).Below (e.evaluate (n + 2)) := by
  cases e with
  | grouping inner => exact ih.evaluate inner
  | unary operator operand line => exact .bind (ih.evaluate operand) fun _ => .refl _
  | binary left operator right line =>
    exact .bind (ih.evaluate left) fun _ => .bind (ih.evaluate right) fun _ => .refl _
  | logical left operator right =>
    rw [Expr.evaluate, Expr.evaluate]
    refine .bind (ih.evaluate left) fun value => ?_
    split
    · exact .refl _
    · exact ih.evaluate right
  | assign target value => exact .bind (ih.evaluate value) fun _ => .refl _
  | call callee arguments line =>
    rw [Expr.evaluate, Expr.evaluate]
    refine .bind (ih.evaluate callee) fun callee => .bind (ih.evaluateAll arguments) fun values => ?_
    cases callee.arity? with
    | none => exact .refl _
    | some arity =>
      simp only
      split
      · exact .asCall line (ih.apply callee values line)
      · exact .refl _
  | get object name => exact .bind (ih.evaluate object) fun _ => .refl _
  | set object name value =>
    rw [Expr.evaluate, Expr.evaluate]
    refine .bind (ih.evaluate object) fun found => ?_
    cases found with
    | ofInstance found => exact .bind (ih.evaluate value) fun _ => .refl _
    | _ => exact .refl _
  | literal | reference | this | super => exact .refl _

theorem succ_evaluateAll (ih : RisesAt n) (es : List Expr) :
    (Lox.evaluateAll (n + 1) es).Below (Lox.evaluateAll (n + 2) es) := by
  cases es with
  | nil => exact .refl _
  | cons e rest =>
    exact .bind (ih.evaluate e) fun _ => .bind (ih.evaluateAll rest) fun _ => .refl _

theorem succ_apply (ih : RisesAt n) (callee : Value) (arguments : List Value) (line : Nat) :
    (callee.apply (n + 1) arguments line).Below (callee.apply (n + 2) arguments line) := by
  cases callee with
  | function f => exact ih.enter f arguments line
  | ofClass c =>
    rw [Value.apply, Value.apply]
    refine .bind (.refl _) fun object => ?_
    cases c.initializer? with
    | none => exact .refl _
    | some initializer =>
      exact .bind (.refl _) fun bound => .bind (ih.enter bound arguments line) fun _ => .refl _
  | _ => exact .refl _

theorem succ_enter (ih : RisesAt n) (f : Function) (arguments : List Value) (line : Nat) :
    (f.enter (n + 1) arguments line).Below (f.enter (n + 2) arguments line) := by
  rw [Function.enter_succ, Function.enter_succ]
  refine .bind (.bind (.refl _) fun frame => ?_) fun _ => .refl _
  exact .inEnvironment frame (ih.executeAll _)

theorem initialValue (ih : RisesAt n) (value : Option Expr) :
    (Run.initialValue n value).Below (Run.initialValue (n + 1) value) := by
  cases value with
  | none => exact .refl _
  | some e => exact ih.evaluate e

theorem succ_execute (ih : RisesAt n) (s : Stmt) :
    (s.execute (n + 1)).Below (s.execute (n + 2)) := by
  cases s with
  | expression value => exact .bind (ih.evaluate value) fun _ => .refl _
  | print value => exact .bind (ih.evaluate value) fun _ => .refl _
  | var name initial =>
    rw [Stmt.execute_var, Stmt.execute_var]
    exact .bind (ih.initialValue initial) fun _ => .refl _
  | block body =>
    exact .bind (.refl _) fun _ => .bind (.refl _) fun scope =>
      .inEnvironment scope (ih.executeAll body)
  | conditional condition thenBranch elseBranch =>
    rw [Stmt.execute_conditional, Stmt.execute_conditional]
    refine .bind (ih.evaluate condition) fun value => ?_
    split
    · exact ih.execute thenBranch
    · cases elseBranch with
      | none => exact .refl _
      | some elseBranch => exact ih.execute elseBranch
  | whileLoop condition body => exact ih.repeatWhile condition body
  | ret line value =>
    rw [Stmt.execute_ret, Stmt.execute_ret]
    exact .bind (ih.initialValue value) fun _ => .refl _
  | function | classDef => exact .refl _

theorem succ_executeAll (ih : RisesAt n) (body : List Stmt) :
    (Lox.executeAll (n + 1) body).Below (Lox.executeAll (n + 2) body) := by
  cases body with
  | nil => exact .refl _
  | cons s rest => exact .andThen (ih.execute s) (ih.executeAll rest)

theorem succ_repeatWhile (ih : RisesAt n) (condition : Expr) (body : Stmt) :
    (Lox.repeatWhile (n + 1) condition body).Below (Lox.repeatWhile (n + 2) condition body) := by
  rw [Lox.repeatWhile, Lox.repeatWhile]
  refine .bind (ih.evaluate condition) fun value => ?_
  split
  · exact .andThen (ih.execute body) (ih.repeatWhile condition body)
  · exact .refl _

theorem succ (ih : RisesAt n) : RisesAt (n + 1) where
  evaluate := ih.succ_evaluate
  evaluateAll := ih.succ_evaluateAll
  apply := ih.succ_apply
  enter := ih.succ_enter
  execute := ih.succ_execute
  executeAll := ih.succ_executeAll
  repeatWhile := ih.succ_repeatWhile

end RisesAt

theorem risesAt (n : Nat) : RisesAt n := by
  induction n with
  | zero => exact .zero
  | succ n ih => exact ih.succ

/-! ### Runs without a bound -/

/-- A run that ends at some bound goes the same way at every larger bound. -/
def Rising (x : Nat → Run α) : Prop := ∀ n, (x n).Below (x (n + 1))

open Classical in
/-- How the run ends at every bound that is large enough. It is exhausted if it ends at none. -/
noncomputable def unbounded (x : Nat → Run α) : Run α := fun m =>
  if h : ∃ n, x n m ≠ .exhausted then x h.choose m else .exhausted

theorem Rising.below {x : Nat → Run α} (h : Rising x) {n k : Nat} (hle : n ≤ k) :
    (x n).Below (x k) := by
  induction hle with
  | refl => exact .refl _
  | step _ ih => exact ih.trans (h _)

section Unbounded

variable {x y : Nat → Run α} {f : α → Nat → Run β} {m : Machine} {n : Nat}

/-- A run with a bound that ends shows how the run without a bound ends. -/
theorem Rising.below_unbounded (h : Rising x) (n : Nat) : (x n).Below (unbounded x) := by
  intro m hends
  have hex : ∃ n, x n m ≠ .exhausted := ⟨n, hends⟩
  calc unbounded x m
    _ = x hex.choose m := dif_pos hex
    _ = x (max n hex.choose) m :=
      (h.below (Nat.le_max_right n hex.choose) m hex.choose_spec).symm
    _ = x n m := h.below (Nat.le_max_left n hex.choose) m hends

/-- How a run without a bound ends is seen at some bound. -/
theorem exists_of_unbounded (h : unbounded x m ≠ .exhausted) : ∃ n, x n m = unbounded x m := by
  by_cases hex : ∃ n, x n m ≠ .exhausted
  · have hchosen : unbounded x m = x hex.choose m := dif_pos hex
    exact ⟨hex.choose, hchosen.symm⟩
  · exact absurd (dif_neg hex) h

/-- A run is the one without a bound if it goes as the runs with a bound and ends only if one of them
does. -/
theorem Rising.unbounded_eq {z : Run α} (h : Rising x) (hbelow : ∀ n, (x n).Below z)
    (hends : ∀ m, z m ≠ .exhausted → ∃ n, x n m ≠ .exhausted) : unbounded x = z := by
  funext m
  by_cases hex : ∃ n, x n m ≠ .exhausted
  · obtain ⟨n, hn⟩ := hex
    rw [h.below_unbounded n m hn, hbelow n m hn]
  · rw [show unbounded x m = .exhausted from dif_neg hex]
    exact Classical.byContradiction fun hz => hex (hends m (Ne.symm hz))

/-- All bounds that are large enough show how a run without a bound ends, and if it does not end, every
bound shows it. -/
theorem Rising.exists_eq_unbounded (h : Rising x) (m : Machine) :
    ∃ n, ∀ larger, n ≤ larger → x larger m = unbounded x m := by
  by_cases hends : unbounded x m = .exhausted
  · refine ⟨0, fun larger _ => Classical.byContradiction fun hne => hne ?_⟩
    rw [hends]
    exact Classical.byContradiction fun hx => hx ((h.below_unbounded larger m hx).symm.trans hends)
  · obtain ⟨n, hn⟩ := exists_of_unbounded hends
    exact ⟨n, fun larger hle => (h.below hle m (hn ▸ hends)).trans hn⟩

theorem unbounded_const (x : Run α) : unbounded (fun _ => x) = x :=
  Rising.unbounded_eq (fun _ => .refl x) (fun _ => .refl x) fun _ h => ⟨0, h⟩

theorem Rising.unbounded_succ (h : Rising x) : unbounded (fun n => x (n + 1)) = unbounded x := by
  refine Rising.unbounded_eq (fun n => h (n + 1)) (fun n => h.below_unbounded (n + 1)) fun m hm => ?_
  obtain ⟨n, hn⟩ := exists_of_unbounded hm
  exact ⟨n, (h n m (hn ▸ hm)).symm ▸ hn ▸ hm⟩

/-- Two parts in a row, each without a bound. -/
theorem Rising.unbounded_bind (hx : Rising x) (hf : ∀ a, Rising (f a)) :
    unbounded (fun n => x n >>= fun a => f a n) = unbounded x >>= fun a => unbounded (f a) := by
  refine Rising.unbounded_eq (fun n => (hx n).bind fun a => hf a n)
    (fun n => (hx.below_unbounded n).bind fun a => (hf a).below_unbounded n) fun m hm => ?_
  cases ho : unbounded x m with
  | exhausted => exact absurd (bind_apply_of_exhausted ho) hm
  | error e after =>
    obtain ⟨n, hn⟩ := exists_of_unbounded (x := x) (m := m) (by rw [ho]; exact nofun)
    exact ⟨n, by rw [bind_apply_of_error (hn.trans ho)]; exact nofun⟩
  | ok a after =>
    rw [bind_apply_of_ok ho] at hm
    obtain ⟨n, hn⟩ := exists_of_unbounded (x := x) (m := m) (by rw [ho]; exact nofun)
    obtain ⟨k, hk⟩ := exists_of_unbounded hm
    have hfirst : x (max n k) m = .ok a after := by
      rw [hx.below (Nat.le_max_left n k) m (by rw [hn, ho]; exact nofun), hn, ho]
    have hsecond : f a (max n k) after = f a k after :=
      (hf a).below (Nat.le_max_right n k) after (hk ▸ hm)
    exact ⟨max n k, by rw [bind_apply_of_ok hfirst, hsecond, hk]; exact hm⟩

theorem Rising.unbounded_inEnvironment (h : Rising x) (env : Environment) :
    unbounded (fun n => inEnvironment env (x n)) = inEnvironment env (unbounded x) := by
  refine Rising.unbounded_eq (fun n => (h n).inEnvironment env)
    (fun n => (h.below_unbounded n).inEnvironment env) fun m hm => ?_
  rw [inEnvironment_apply] at hm
  have hinside : unbounded x { m with environment := env } ≠ .exhausted :=
    fun he => hm (afterwards_of_exhausted he)
  obtain ⟨n, hn⟩ := exists_of_unbounded hinside
  refine ⟨n, ?_⟩
  rw [inEnvironment_apply, Procedure.afterwards, hn]
  exact hm

theorem Rising.andThen {x y : Nat → Run Completion} (hx : Rising x) (hy : Rising y) :
    Rising fun n => (x n).andThen (y n) := fun n => (hx n).andThen (hy n)

theorem Rising.unbounded_andThen {x y : Nat → Run Completion} (hx : Rising x) (hy : Rising y) :
    unbounded (fun n => (x n).andThen (y n)) = (unbounded x).andThen (unbounded y) := by
  let next : Completion → Nat → Run Completion := fun completion n =>
    match completion with
    | .returned value => pure (.returned value)
    | .normal => y n
  have hnext : ∀ completion, Rising (next completion) := by
    rintro (_ | value)
    · exact hy
    · exact fun _ => .refl _
  refine (hx.unbounded_bind hnext).trans (bind_congr fun completion => ?_)
  cases completion with
  | returned value => exact unbounded_const _
  | normal => rfl

end Unbounded

/-! ### Loops without a bound -/

/-- At most so many rounds of a loop, each of which may return. -/
def rounds (condition : Run Value) (body : Run Completion) : Nat → Run Completion
  | 0 => exhaust
  | n + 1 => do
    if (← condition).isTruthy then body.andThen (rounds condition body n) else return .normal

/-- Runs the body as long as the condition holds and the body does not return. -/
noncomputable def cycle (condition : Run Value) (body : Run Completion) : Run Completion :=
  unbounded (rounds condition body)

theorem Below.rounds {c d : Run Value} {x y : Run Completion} (hc : c.Below d) (hx : x.Below y)
    {next others : Run Completion} (hnext : next.Below others) :
    Below (c >>= fun value => if value.isTruthy then x.andThen next else pure .normal)
      (d >>= fun value => if value.isTruthy then y.andThen others else pure .normal) := by
  refine hc.bind fun value => ?_
  split
  · exact hx.andThen hnext
  · exact .refl _

theorem rising_rounds (condition : Run Value) (body : Run Completion) :
    Rising (rounds condition body) := by
  intro n
  induction n with
  | zero => exact .exhaust _
  | succ n ih => exact .rounds (.refl condition) (.refl body) ih

/-- A round of a loop without a bound is made of parts without a bound. -/
theorem Rising.unbounded_round {c : Nat → Run Value} {x next : Nat → Run Completion}
    (hc : Rising c) (hx : Rising x) (hnext : Rising next) :
    unbounded (fun n => c n >>= fun value =>
      if value.isTruthy then (x n).andThen (next n) else pure .normal) =
    unbounded c >>= fun value =>
      if value.isTruthy then (unbounded x).andThen (unbounded next) else pure .normal := by
  let round : Value → Nat → Run Completion := fun value n =>
    if value.isTruthy then (x n).andThen (next n) else pure .normal
  have hround : ∀ value, Rising (round value) := by
    intro value n
    show Below (if _ then _ else _) (if _ then _ else _)
    split
    · exact (hx.andThen hnext) n
    · exact .refl _
  refine (hc.unbounded_bind hround).trans (bind_congr fun value => ?_)
  by_cases hvalue : value.isTruthy
  · simp only [round, hvalue, if_true]
    exact hx.unbounded_andThen hnext
  · simp only [round, hvalue]
    exact unbounded_const _

/-- A loop is a round and then the loop again. -/
theorem cycle_eq (condition : Run Value) (body : Run Completion) :
    cycle condition body = (do
      if (← condition).isTruthy then body.andThen (cycle condition body) else return .normal) := by
  have hcondition : Rising fun _ => condition := fun _ => .refl _
  have hbody : Rising fun _ => body := fun _ => .refl _
  have hround := hcondition.unbounded_round hbody (rising_rounds condition body)
  rw [unbounded_const, unbounded_const] at hround
  exact (rising_rounds condition body).unbounded_succ.symm.trans hround

end Run

open Run

noncomputable def Expr.run (e : Expr) : Run Value := unbounded fun n => e.evaluate n

noncomputable def Stmt.run (s : Stmt) : Run Completion := unbounded fun n => s.execute n

/-- Runs statements until one of them returns. -/
noncomputable def runAll (body : List Stmt) : Run Completion := unbounded fun n => executeAll n body

theorem Expr.rising (e : Expr) : Rising fun n => e.evaluate n := fun n => (risesAt n).evaluate e

theorem Stmt.rising (s : Stmt) : Rising fun n => s.execute n := fun n => (risesAt n).execute s

theorem rising_executeAll (body : List Stmt) : Rising fun n => executeAll n body :=
  fun n => (risesAt n).executeAll body

theorem Expr.run_literal (value : Literal) : (literal value).run = pure (.ofLiteral value) :=
  (rising (literal value)).unbounded_succ.symm.trans (unbounded_const _)

theorem runAll_nil : runAll [] = pure .normal :=
  (rising_executeAll []).unbounded_succ.symm.trans (unbounded_const _)

theorem runAll_cons (s : Stmt) (rest : List Stmt) :
    runAll (s :: rest) = s.run.andThen (runAll rest) :=
  (rising_executeAll (s :: rest)).unbounded_succ.symm.trans
    (s.rising.unbounded_andThen (rising_executeAll rest))

namespace Stmt

theorem run_expression (e : Expr) : (expression e).run = e.run >>= fun _ => pure .normal := by
  refine (rising (expression e)).unbounded_succ.symm.trans ?_
  have hends : Value → Rising fun _ => (pure .normal : Run Completion) := fun _ _ => .refl _
  exact (e.rising.unbounded_bind hends).trans (bind_congr fun _ => unbounded_const _)

theorem run_block (body : List Stmt) :
    (block body).run = (do
      let scope ← newScope (← read Machine.environment) ∅
      inEnvironment scope (runAll body)) := by
  have hinside : ∀ scope : Environment, Rising fun n => inEnvironment scope (executeAll n body) :=
    fun scope n => (rising_executeAll body n).inEnvironment scope
  have hscope : ∀ env : Environment, Rising fun n => newScope env ∅ >>= fun scope =>
      inEnvironment scope (executeAll n body) :=
    fun env n => .bind (.refl _) fun scope => hinside scope n
  have hread : Rising fun _ => read Machine.environment := fun _ => .refl _
  have hnew : ∀ env : Environment, Rising fun _ => newScope env ∅ := fun env _ => .refl _
  refine (rising (block body)).unbounded_succ.symm.trans ((hread.unbounded_bind hscope).trans ?_)
  rw [unbounded_const]
  refine bind_congr fun env => ((hnew env).unbounded_bind hinside).trans ?_
  rw [unbounded_const]
  exact bind_congr fun scope => (rising_executeAll body).unbounded_inEnvironment scope

/-- A loop without a bound is made of runs without a bound. -/
theorem run_whileLoop (condition : Expr) (body : Stmt) :
    (whileLoop condition body).run = cycle condition.run body.run := by
  let loop : Run Completion := unbounded fun n => repeatWhile n condition body
  have hrises : Rising fun n => repeatWhile n condition body :=
    fun n => (risesAt n).repeatWhile condition body
  have hround : loop = condition.run >>= fun value =>
      if value.isTruthy then body.run.andThen loop else pure .normal :=
    hrises.unbounded_succ.symm.trans (condition.rising.unbounded_round body.rising hrises)
  -- Rounds that end show how the loop ends, and the other way round.
  have hbelow : ∀ n, (rounds condition.run body.run n).Below loop := by
    intro n
    induction n with
    | zero => exact .exhaust _
    | succ n ih =>
      rw [hround]
      exact .rounds (.refl _) (.refl _) ih
  have habove : ∀ n, (repeatWhile n condition body).Below (rounds condition.run body.run n) := by
    intro n
    induction n with
    | zero => exact .exhaust _
    | succ n ih => exact .rounds (condition.rising.below_unbounded n) (body.rising.below_unbounded n) ih
  have hloop : (whileLoop condition body).run = loop :=
    (rising (whileLoop condition body)).unbounded_succ.symm
  rw [hloop]
  refine ((rising_rounds _ _).unbounded_eq hbelow fun m hm => ?_).symm
  obtain ⟨n, hn⟩ := exists_of_unbounded hm
  have hends : repeatWhile n condition body m ≠ .exhausted := hn ▸ hm
  exact ⟨n, (habove n m hends).symm ▸ hends⟩

end Stmt

end Lox
