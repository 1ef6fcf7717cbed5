import Lox.Proofs.Evaluation.Restoring

/-!
# How a return leaves the body that it is in

The statements that a body comes to by itself are the tasks of `Within`: no call is entered on the
way, so a return statement among them is one of this body and of no other function. A body that ends
normally came to none. One that ends with a return came to exactly one, and the machine is the one
that this statement left, so nothing was done after it.
-/

namespace Lox

open Procedure Run

/-! ### The return statements of a body -/

namespace Stmt

mutual

/-- The return statements in a statement, with their lines, outside the functions that it declares.
-/
def ownReturns : Stmt → List (Nat × Option Expr)
  | ret line value => [(line, value)]
  | block body => ownReturnsAll body
  | conditional _ thenBranch none => thenBranch.ownReturns
  | conditional _ thenBranch (some elseBranch) => thenBranch.ownReturns ++ elseBranch.ownReturns
  | whileLoop _ body => body.ownReturns
  | expression _ | print _ | var _ _ | function _ | classDef _ _ _ => []

def ownReturnsAll : List Stmt → List (Nat × Option Expr)
  | [] => []
  | s :: rest => s.ownReturns ++ ownReturnsAll rest

end

/-- A statement with no statement in it. -/
def IsSimple : Stmt → Prop
  | expression _ | print _ | var _ _ | function _ | classDef _ _ _ => True
  | _ => False

end Stmt

namespace Task

/-- Whether the task executes statements. -/
def Executes : Task → Prop
  | .statement _ | .statements _ | .loop _ _ => True
  | _ => False

def ownReturns : Task → List (Nat × Option Expr)
  | .statement s => s.ownReturns
  | .statements body => Stmt.ownReturnsAll body
  | .loop _ body => body.ownReturns
  | _ => []

end Task

namespace Configuration

/-- The first task goes on to the second one, and both execute statements. -/
def Proceeds (c d : Configuration) : Prop := c.Starts d ∧ c.task.Executes ∧ d.task.Executes

/-- The first task comes to the second one without entering a call. -/
abbrev Within : Configuration → Configuration → Prop := Relation.ReflTransGen Proceeds

/-- The task is a return statement. -/
def IsReturn (c : Configuration) : Prop := ∃ line value, c.task = .statement (.ret line value)

/-- The statements of the task end like this and leave the machine `after`. -/
def Completes (completion : Completion) (after : Machine) : Configuration → Prop
  | ⟨n, m, .statement s⟩ => s.execute n m = .ok completion after
  | ⟨n, m, .statements body⟩ => executeAll n body m = .ok completion after
  | ⟨n, m, .loop condition body⟩ => repeatWhile n condition body m = .ok completion after
  | _ => False

/-- The task `c` comes to no return statement. -/
def Quiet (c : Configuration) : Prop := ∀ r, c.Within r → ¬ r.IsReturn

/-- Of all return statements `r` is the one that `c` comes to. It gives the value, and the machine
that it leaves is the one after `c`, but for the environment, which is the one before. -/
structure ReturnsAt (c : Configuration) (value : Value) (after : Machine) (r : Configuration) :
    Prop where
  within : c.Within r
  own : ∃ line value, r.task = .statement (.ret line value) ∧ (line, value) ∈ c.task.ownReturns
  completes : ∃ left, r.Completes (.returned value) left ∧
    after = { left with environment := c.machine.environment }
  unique : ∀ other, c.Within other → other.IsReturn → other = r

/-- How the statements of a task have ended. -/
def Ended (c : Configuration) (after : Machine) : Completion → Prop
  | .normal => c.Quiet
  | .returned value => ∃ r, c.ReturnsAt value after r

variable {c d : Configuration} {completion : Completion} {m after inner : Machine} {n : Nat}

theorem within_cases {r : Configuration} (h : c.Within r) :
    r = c ∨ ∃ d, c.Proceeds d ∧ d.Within r := by
  rcases Relation.ReflTransGen.cases_head h with rfl | ⟨d, hd, hr⟩
  · exact .inl rfl
  · exact .inr ⟨d, hd, hr⟩

theorem Proceeds.ownReturns_subset (h : c.Proceeds d) : d.task.ownReturns ⊆ c.task.ownReturns := by
  obtain ⟨hd, hexecutes, hexecutes'⟩ := h
  cases hd with
  | block | whileLoop | loopBody | nextRound => exact List.Subset.refl _
  | @thenBranch n m condition thenBranch elseBranch =>
    cases elseBranch with
    | none => exact List.Subset.refl _
    | some elseBranch => exact List.subset_append_left _ _
  | elseBranch => exact List.subset_append_right _ _
  | firstStatement => exact List.subset_append_left _ _
  | otherStatements => exact List.subset_append_right _ _
  | firstOfProgram | functionBody => exact hexecutes.elim
  | _ => exact hexecutes'.elim

/-- A task that is no return statement and goes on to none. -/
theorem quiet_of_proceeds (hself : ¬ c.IsReturn) (h : ∀ d, c.Proceeds d → d.Quiet) : c.Quiet := by
  intro r hr
  rcases within_cases hr with rfl | ⟨d, hd, hr⟩
  · exact hself
  · exact h d hd r hr

/-- A task ends like the only part of it that may come to a return statement. -/
theorem Ended.of_proceeds (hself : ¬ c.IsReturn) (hd : c.Proceeds d)
    (hothers : ∀ e, c.Proceeds e → e = d ∨ e.Quiet) (h : d.Ended inner completion)
    (hafter : after = { inner with environment := c.machine.environment }) :
    c.Ended after completion := by
  cases completion with
  | normal =>
    refine quiet_of_proceeds hself fun e he => ?_
    rcases hothers e he with rfl | hquiet
    · exact h
    · exact hquiet
  | returned value =>
    obtain ⟨r, hr⟩ := h
    obtain ⟨left, hleft, rfl⟩ := hr.completes
    obtain ⟨line, value, hreturn, hown⟩ := hr.own
    refine ⟨r, .head hd hr.within, ⟨line, value, hreturn, hd.ownReturns_subset hown⟩,
      ⟨left, hleft, hafter⟩, ?_⟩
    intro other hother hreturn
    rcases within_cases hother with rfl | ⟨e, he, hother⟩
    · exact absurd hreturn hself
    · rcases hothers e he with rfl | hquiet
      · exact hr.unique other hother hreturn
      · exact absurd hreturn (hquiet other hother)

/-! ### What a body goes on to -/

variable {s : Stmt} {condition : Expr} {a : Value} {decided : Machine}

theorem not_isReturn_of_isSimple (hs : s.IsSimple) : ¬ IsReturn ⟨n, m, .statement s⟩ := by
  rintro ⟨line, value, heq⟩
  cases heq
  exact hs.elim

theorem not_proceeds_of_isSimple (hs : s.IsSimple) : ¬ Proceeds ⟨n, m, .statement s⟩ d := by
  rintro ⟨hd, -, hexecutes⟩
  cases hd with
  | block | condition | thenBranch | elseBranch | whileLoop | result => exact hs.elim
  | expression | printed | initial | superclass => exact hexecutes.elim

theorem proceeds_statements {rest : List Stmt}
    (h : Proceeds ⟨n + 1, m, .statements (s :: rest)⟩ d) :
    d = ⟨n, m, .statement s⟩ ∨
      ∃ between, s.execute n m = .ok .normal between ∧ d = ⟨n, between, .statements rest⟩ := by
  cases h.1 with
  | firstStatement => exact .inl rfl
  | otherStatements hfirst => exact .inr ⟨_, hfirst, rfl⟩

theorem proceeds_conditional {thenBranch : Stmt} {elseBranch : Option Stmt}
    (hcondition : condition.evaluate n m = .ok a decided)
    (h : Proceeds ⟨n + 1, m, .statement (.conditional condition thenBranch elseBranch)⟩ d) :
    a.isTruthy = true ∧ d = ⟨n, decided, .statement thenBranch⟩ ∨
      a.isTruthy = false ∧
        ∃ other, elseBranch = some other ∧ d = ⟨n, decided, .statement other⟩ := by
  obtain ⟨hd, -, hexecutes⟩ := h
  cases hd with
  | condition => exact hexecutes.elim
  | thenBranch hother ha =>
    cases hcondition.symm.trans hother
    exact .inl ⟨ha, rfl⟩
  | elseBranch hother ha =>
    cases hcondition.symm.trans hother
    exact .inr ⟨ha, _, rfl, rfl⟩

theorem proceeds_loop {body : Stmt} (hcondition : condition.evaluate n m = .ok a decided)
    (h : Proceeds ⟨n + 1, m, .loop condition body⟩ d) :
    a.isTruthy = true ∧ (d = ⟨n, decided, .statement body⟩ ∨
      ∃ between, body.execute n decided = .ok .normal between ∧
        d = ⟨n, between, .loop condition body⟩) := by
  obtain ⟨hd, -, hexecutes⟩ := h
  cases hd with
  | loopCondition => exact hexecutes.elim
  | loopBody hother ha =>
    cases hcondition.symm.trans hother
    exact ⟨ha, .inl rfl⟩
  | nextRound hother ha hbody =>
    cases hcondition.symm.trans hother
    exact ⟨ha, .inr ⟨_, hbody, rfl⟩⟩

/-! ### The end of a body -/

/-- The run never ends with a return. -/
def EndsNormally (x : Run Completion) : Prop :=
  ∀ m completion after, x m = .ok completion after → completion = .normal

theorem EndsNormally.pure : EndsNormally (Pure.pure .normal) := by
  intro m completion after h
  cases h
  rfl

theorem EndsNormally.bind {α : Type} {x : Run α} {f : α → Run Completion}
    (hf : ∀ a, EndsNormally (f a)) : EndsNormally (x >>= f) := by
  intro m completion after h
  obtain ⟨a, between, -, h⟩ := of_bind_ok h
  exact hf a between completion after h

theorem endsNormally_of_isSimple (hs : s.IsSimple) : EndsNormally (s.execute (n + 1)) := by
  cases s with
  | expression =>
    rw [Stmt.execute]
    exact .bind fun _ => .pure
  | print =>
    rw [Stmt.execute]
    exact .bind fun _ => .bind fun _ => .bind fun _ => .pure
  | var =>
    rw [Stmt.execute_var]
    exact .bind fun _ => .bind fun _ => .pure
  | function =>
    rw [Stmt.execute]
    exact .bind fun _ => .bind fun _ => .bind fun _ => .pure
  | classDef =>
    rw [Stmt.execute_classDef]
    exact .bind fun _ => .bind fun _ => .bind fun _ => .bind fun _ => .bind fun _ => .pure
  | block | conditional | whileLoop | ret => exact hs.elim

theorem Completes.environment (h : c.Completes completion after) :
    after.environment = c.machine.environment := by
  obtain ⟨n, m, task⟩ := c
  cases task with
  | statement s =>
    have hrestored := (runsRestore n).execute s m after
    exact (hrestored (by rw [show s.execute n m = _ from h]; rfl)).environment
  | statements body =>
    have hrestored := (runsRestore n).executeAll body m after
    exact (hrestored (by rw [show executeAll n body m = _ from h]; rfl)).environment
  | loop condition body =>
    have hrestored := (runsRestore n).repeatWhile condition body m after
    exact (hrestored (by rw [show repeatWhile n condition body m = _ from h]; rfl)).environment
  | _ => exact h.elim

theorem environment_eq_of_evaluate {e : Expr} {value : Value}
    (h : e.evaluate n m = .ok value after) : after.environment = m.environment :=
  ((runsRestore n).evaluate e m after (by rw [h]; rfl)).environment

/-- How bodies have ended that ended within the bound `n`. -/
def EndsAt (n : Nat) : Prop :=
  ∀ m task completion after, Completes completion after ⟨n, m, task⟩ →
    Ended ⟨n, m, task⟩ after completion

namespace EndsAt

/-- A task that ends with the part of it that may come to a return statement, in its environment. -/
theorem of_part (ih : EndsAt n) {task : Task} {start : Machine} (hself : ¬ c.IsReturn)
    (hd : c.Proceeds ⟨n, start, task⟩)
    (hothers : ∀ e, c.Proceeds e → e = ⟨n, start, task⟩ ∨ e.Quiet)
    (henv : start.environment = c.machine.environment)
    (h : Completes completion after ⟨n, start, task⟩) : c.Ended after completion := by
  have hafter : after.environment = c.machine.environment := h.environment.trans henv
  exact .of_proceeds hself hd hothers (ih _ _ _ _ h) (by rw [← hafter])

theorem succ_statements (ih : EndsAt n) (body : List Stmt)
    (h : executeAll (n + 1) body m = .ok completion after) :
    Ended ⟨n + 1, m, .statements body⟩ after completion := by
  have hself : ¬ IsReturn ⟨n + 1, m, .statements body⟩ := by
    rintro ⟨line, value, heq⟩
    cases heq
  cases body with
  | nil =>
    cases h
    refine quiet_of_proceeds hself ?_
    rintro d ⟨hd, -, -⟩
    cases hd
  | cons s rest =>
    rw [executeAll] at h
    obtain ⟨first, between, hfirst, h⟩ := of_bind_ok h
    cases first with
    | returned value =>
      cases h
      refine ih.of_part hself ⟨.firstStatement, trivial, trivial⟩ (fun e he => ?_) rfl hfirst
      rcases proceeds_statements he with rfl | ⟨other, hnormal, -⟩
      · exact .inl rfl
      · cases hfirst.symm.trans hnormal
    | normal =>
      have hcompletes : Completes .normal between ⟨n, m, .statement s⟩ := hfirst
      refine ih.of_part hself ⟨.otherStatements hfirst, trivial, trivial⟩ (fun e he => ?_)
        hcompletes.environment h
      rcases proceeds_statements he with rfl | ⟨other, hnormal, rfl⟩
      · exact .inr (ih _ _ _ _ hcompletes)
      · cases hfirst.symm.trans hnormal
        exact .inl rfl

theorem succ_loop (ih : EndsAt n) (condition : Expr) (body : Stmt)
    (h : repeatWhile (n + 1) condition body m = .ok completion after) :
    Ended ⟨n + 1, m, .loop condition body⟩ after completion := by
  have hself : ¬ IsReturn ⟨n + 1, m, .loop condition body⟩ := by
    rintro ⟨line, value, heq⟩
    cases heq
  rw [repeatWhile] at h
  obtain ⟨a, decided, hcondition, h⟩ := of_bind_ok h
  have henv := environment_eq_of_evaluate hcondition
  cases ha : a.isTruthy with
  | false =>
    rw [ha] at h
    cases h
    refine quiet_of_proceeds hself fun e he => ?_
    rw [(proceeds_loop hcondition he).1] at ha
    cases ha
  | true =>
    rw [ha, if_pos rfl] at h
    obtain ⟨first, between, hbody, h⟩ := of_bind_ok h
    cases first with
    | returned value =>
      cases h
      refine ih.of_part hself ⟨.loopBody hcondition ha, trivial, trivial⟩ (fun e he => ?_) henv
        hbody
      rcases (proceeds_loop hcondition he).2 with rfl | ⟨other, hnormal, -⟩
      · exact .inl rfl
      · cases hbody.symm.trans hnormal
    | normal =>
      have hcompletes : Completes .normal between ⟨n, decided, .statement body⟩ := hbody
      refine ih.of_part hself ⟨.nextRound hcondition ha hbody, trivial, trivial⟩ (fun e he => ?_)
        (hcompletes.environment.trans henv) h
      rcases (proceeds_loop hcondition he).2 with rfl | ⟨other, hnormal, rfl⟩
      · exact .inr (ih _ _ _ _ hcompletes)
      · cases hbody.symm.trans hnormal
        exact .inl rfl

theorem succ_simple (hs : s.IsSimple) (h : s.execute (n + 1) m = .ok completion after) :
    Ended ⟨n + 1, m, .statement s⟩ after completion := by
  obtain rfl := endsNormally_of_isSimple hs _ _ _ h
  exact quiet_of_proceeds (not_isReturn_of_isSimple hs) fun e he =>
    absurd he (not_proceeds_of_isSimple hs)

theorem succ_conditional (ih : EndsAt n) (condition : Expr) (thenBranch : Stmt)
    (elseBranch : Option Stmt)
    (h : (Stmt.conditional condition thenBranch elseBranch).execute (n + 1) m =
      .ok completion after) :
    Ended ⟨n + 1, m, .statement (.conditional condition thenBranch elseBranch)⟩ after
      completion := by
  have hself :
      ¬ IsReturn ⟨n + 1, m, .statement (.conditional condition thenBranch elseBranch)⟩ := by
    rintro ⟨line, value, heq⟩
    cases heq
  rw [Stmt.execute_conditional] at h
  obtain ⟨a, decided, hcondition, h⟩ := of_bind_ok h
  have henv := environment_eq_of_evaluate hcondition
  cases ha : a.isTruthy with
  | true =>
    rw [ha, if_pos rfl] at h
    refine ih.of_part hself ⟨.thenBranch hcondition ha, trivial, trivial⟩ (fun e he => ?_) henv h
    rcases proceeds_conditional hcondition he with ⟨-, rfl⟩ | ⟨hfalsy, -⟩
    · exact .inl rfl
    · cases ha.symm.trans hfalsy
  | false =>
    rw [ha, if_neg Bool.false_ne_true] at h
    cases elseBranch with
    | none =>
      cases h
      refine quiet_of_proceeds hself fun e he => ?_
      rcases proceeds_conditional hcondition he with ⟨htruthy, -⟩ | ⟨-, other, hnone, -⟩
      · cases ha.symm.trans htruthy
      · cases hnone
    | some other =>
      refine ih.of_part hself ⟨.elseBranch hcondition ha, trivial, trivial⟩ (fun e he => ?_) henv h
      rcases proceeds_conditional hcondition he with ⟨htruthy, -⟩ | ⟨-, branch, hbranch, rfl⟩
      · cases ha.symm.trans htruthy
      · cases hbranch
        exact .inl rfl

theorem succ_statement (ih : EndsAt n) (s : Stmt)
    (h : s.execute (n + 1) m = .ok completion after) :
    Ended ⟨n + 1, m, .statement s⟩ after completion := by
  cases s with
  | expression | print | var | function | classDef => exact succ_simple trivial h
  | conditional condition thenBranch elseBranch =>
    exact ih.succ_conditional condition thenBranch elseBranch h
  | block body =>
    have hself : ¬ IsReturn ⟨n + 1, m, .statement (.block body)⟩ := by
      rintro ⟨line, value, heq⟩
      cases heq
    rw [Stmt.execute] at h
    obtain ⟨inner, hbody, rfl⟩ := of_inEnvironment_ok
      (show inEnvironment (m.environment.inner m.store.size) (executeAll n body)
        { m with store := m.store.push ∅ } = .ok completion after from h)
    refine .of_proceeds hself ⟨.block (newScope_apply ..), trivial, trivial⟩ ?_
      (ih _ _ _ _ hbody) rfl
    rintro d ⟨hd, -, -⟩
    cases hd with
    | block hframe =>
      cases hframe
      exact .inl rfl
  | whileLoop condition body =>
    have hself : ¬ IsReturn ⟨n + 1, m, .statement (.whileLoop condition body)⟩ := by
      rintro ⟨line, value, heq⟩
      cases heq
    rw [Stmt.execute] at h
    refine ih.of_part hself ⟨.whileLoop, trivial, trivial⟩ ?_ rfl h
    rintro d ⟨hd, -, -⟩
    cases hd
    exact .inl rfl
  | ret line value =>
    have hcompletes : Completes completion after ⟨n + 1, m, .statement (.ret line value)⟩ := h
    rw [Stmt.execute_ret] at h
    obtain ⟨found, _, -, h⟩ := of_bind_ok h
    cases h
    refine ⟨_, .refl, ⟨line, value, rfl, .head _⟩, ⟨after, hcompletes, ?_⟩, ?_⟩
    · rw [← hcompletes.environment]
    · intro other hother _
      rcases within_cases hother with rfl | ⟨d, ⟨hd, -, hexecutes⟩, -⟩
      · rfl
      · cases hd
        exact hexecutes.elim

end EndsAt

/-- Every body that ends does so like the return statement that it comes to, or comes to none. -/
theorem endsAt (n : Nat) : EndsAt n := by
  induction n with
  | zero =>
    intro m task completion after h
    cases task with
    | statement | statements | loop => cases h
    | _ => exact h.elim
  | succ n ih =>
    intro m task completion after h
    cases task with
    | statement s => exact ih.succ_statement s h
    | statements body => exact ih.succ_statements body h
    | loop condition body => exact ih.succ_loop condition body h
    | _ => exact h.elim

/-- A body that has no return statement of its own ends normally. -/
theorem Completes.eq_normal (h : c.Completes completion after) (hnone : c.task.ownReturns = []) :
    completion = .normal := by
  have hended : c.Ended after completion := endsAt c.bound _ _ _ _ h
  cases completion with
  | normal => rfl
  | returned value =>
    obtain ⟨r, hr⟩ := hended
    obtain ⟨line, value, -, hown⟩ := hr.own
    rw [hnone] at hown
    cases hown

end Configuration

/-! ### Calls -/

namespace Function

open Lox.Configuration

/-- The body of the function, in a new scope with the arguments. -/
def activation (f : Function) (n : Nat) (arguments : List Value) (m : Machine) : Configuration :=
  ⟨n, { m with
      store := m.store.push (.ofList (f.declaration.paramNames.zip arguments)),
      environment := f.closure.inner m.store.size },
    .statements f.declaration.body⟩

theorem starts_activation (f : Function) (n : Nat) (arguments : List Value) (line : Nat)
    (m : Machine) :
    Starts ⟨n + 1, m, .entry f arguments line⟩ (f.activation n arguments m) :=
  .functionBody (newScope_apply ..)

/-- What has come before when the body of a function has ended. -/
theorem of_callBody_ok {f : Function} {n : Nat} {arguments : List Value} {m after : Machine}
    {completion : Completion} (h : callBody n f arguments m = .ok completion after) :
    ∃ inner, (f.activation n arguments m).Completes completion inner ∧
      after = { inner with environment := m.environment } :=
  of_inEnvironment_ok (show inEnvironment (f.closure.inner m.store.size)
    (executeAll n f.declaration.body)
    { m with store := m.store.push (.ofList (f.declaration.paramNames.zip arguments)) } =
      .ok completion after from h)

/-- A call gives the value of the return statement that the body comes to, or else nil, and leaves
the machine that the body left. -/
theorem enter_ok {f : Function} (hinit : f.isInitializer = false) {n : Nat}
    {arguments : List Value} {line : Nat} {m last : Machine} {result : Value}
    (h : f.enter (n + 1) arguments line m = .ok result last) :
    ∃ inner, last = { inner with environment := m.environment } ∧
      ((∃ r, (f.activation n arguments m).ReturnsAt result inner r) ∨
        (f.activation n arguments m).Quiet ∧ result = .nil) := by
  rw [enter_succ] at h
  obtain ⟨completion, after, hbody, h⟩ := of_bind_ok h
  obtain ⟨inner, hcompletes, rfl⟩ := of_callBody_ok hbody
  have hended : Ended _ inner completion := endsAt n _ _ _ _ hcompletes
  unfold callResult at h
  rw [hinit, if_neg Bool.false_ne_true] at h
  cases completion with
  | normal =>
    cases h
    exact ⟨inner, rfl, .inr ⟨hended, rfl⟩⟩
  | returned value =>
    cases h
    exact ⟨inner, rfl, .inl hended⟩

end Function

end Lox
