import Lox.Proofs.Evaluation.Events

/-!
# Events follow one another

A task that is under the regime of what can be read does nothing by itself but to let the machine grow,
before, between and after the tasks that it starts, and to write one field if it is a `set` expression.
So the events of a run follow one another.
-/

namespace Lox

open Procedure Run

namespace Configuration

/-- From the machine `m` on the task ends by itself, if it ends. -/
def Closes (c : Configuration) (m : Machine) : Prop :=
  ∀ after ∈ c.after?, (Event.ends c after).Follows m

/-- From the machine `m` on the task starts these tasks, one after another, and then ends. -/
def Threads (c : Configuration) : Machine → List Configuration → Prop
  | m, [] => c.Closes m
  | m, d :: rest => m.Moves d.machine ∧
      match d.after? with
      | none => rest = [] ∧ c.after? = none
      | some after => Threads c after rest

variable {c d : Configuration} {m start : Machine} {α β : Type} {x : Run α} {f : α → Run β}

/-- A task that does no more than to let the machine grow. -/
theorem Closes.of_moving (hafter : c.after? = (x m).state?) (hw : c.write? = none)
    (hx : Leads Machine.Moves m x) : c.Closes m := by
  intro after hmem
  rw [hafter] at hmem
  exact .of_moves (hx after hmem) hw

theorem Closes.of_state (hafter : c.after? = some m) (hw : c.write? = none) : c.Closes m :=
  .of_moving (x := pure ()) hafter hw (.pure ())

/-- A part of the task, and what comes after it if it ends normally. -/
theorem Threads.bind {rest : α → Machine → List Configuration} (hmoves : m.Moves d.machine)
    (hd : d.after? = (x start).state?) (hafter : c.after? = ((x >>= f) start).state?)
    (hw : ∀ e after, x start = .error e after → c.write? = none)
    (hok : ∀ a after, x start = .ok a after → c.after? = (f a after).state? →
      c.Threads after (rest a after)) :
    c.Threads m (d :: (x start).next rest) := by
  refine ⟨hmoves, ?_⟩
  rw [hd]
  rw [bind_apply] at hafter
  cases ho : x start with
  | exhausted =>
    rw [ho] at hafter
    exact ⟨rfl, hafter⟩
  | error e after =>
    rw [ho] at hafter
    exact .of_state hafter (hw e after ho)
  | ok a after =>
    rw [ho] at hafter
    exact hok a after ho hafter

/-- The last part of the task, and the end of the task after it. -/
theorem Threads.closing (hmoves : m.Moves d.machine) (hd : d.after? = (x start).state?)
    (hafter : c.after? = ((x >>= f) start).state?)
    (hw : ∀ e after, x start = .error e after → c.write? = none)
    (hok : ∀ a after, x start = .ok a after → c.after? = (f a after).state? → c.Closes after) :
    c.Threads m [d] := by
  refine ⟨hmoves, ?_⟩
  rw [hd]
  rw [bind_apply] at hafter
  cases ho : x start with
  | exhausted =>
    rw [ho] at hafter
    exact ⟨rfl, hafter⟩
  | error e after =>
    rw [ho] at hafter
    exact .of_state hafter (hw e after ho)
  | ok a after =>
    rw [ho] at hafter
    exact hok a after ho hafter

/-- The only part of the task, with no more than growth after it. -/
theorem Threads.single (hmoves : m.Moves d.machine) (hd : d.after? = (x start).state?)
    (hafter : c.after? = ((x >>= f) start).state?) (hw : c.write? = none)
    (hf : ∀ a after, Leads Machine.Moves after (f a)) : c.Threads m [d] :=
  .closing hmoves hd hafter (fun _ _ _ => hw) fun a _ _ hafter => .of_moving hafter hw (hf a _)

/-- The last part of the task, after which `g` changes nothing that may grow. -/
theorem Threads.last {g : Machine → Machine} (hmoves : m.Moves d.machine)
    (hafter : c.after? = d.after?.map g) (hw : c.write? = none)
    (hg : ∀ after : Machine, after.Moves (g after)) : c.Threads m [d] := by
  refine ⟨hmoves, ?_⟩
  cases hd : d.after? with
  | none => exact ⟨rfl, by rw [hafter, hd]; rfl⟩
  | some after =>
    intro later hmem
    rw [hafter, hd] at hmem
    cases hmem
    exact .of_moves (hg after) hw

/-- The last part of the task and a change after it, with no more than growth after both. -/
theorem Threads.enclosed {y : Run α} {g : Machine → Machine} (hmoves : m.Moves d.machine)
    (hd : d.after? = (x start).state?) (hy : y m = afterwards g x start)
    (hafter : c.after? = ((y >>= f) m).state?) (hw : c.write? = none)
    (hg : ∀ after : Machine, after.Moves (g after)) 
    (hf : ∀ a after, Leads Machine.Moves after (f a)) : c.Threads m [d] := by
  refine ⟨hmoves, ?_⟩
  rw [hd]
  rw [bind_apply, hy, afterwards] at hafter
  cases ho : x start with
  | exhausted =>
    rw [ho] at hafter
    exact ⟨rfl, hafter⟩
  | error e after =>
    rw [ho] at hafter
    intro later hmem
    rw [hafter] at hmem
    cases hmem
    exact .of_moves (hg after) hw
  | ok a after =>
    rw [ho] at hafter
    intro later hmem
    rw [hafter] at hmem
    exact .of_moves ((hg after).trans (hf a _ later hmem)) hw

theorem Threads.same (hmoves : m.Moves d.machine) (hafter : c.after? = d.after?)
    (hw : c.write? = none) : c.Threads m [d] :=
  .last (g := id) hmoves (by rw [hafter, Option.map_id_fun, id]) hw .refl

/-! ### Expressions -/

section

variable {n : Nat}

theorem threads_set (object : Expr) (name : Identifier) (value : Expr) :
    Threads ⟨n + 1, m, .expression (.set object name value)⟩ m
      ((Expr.set object name value).children n m) := by
  refine .bind (.refl m) rfl rfl (fun e after ho => by simp [write?, ho]) ?_
  intro found after ho hafter
  cases found with
  | ofInstance found =>
    refine .closing (.refl after) rfl hafter (fun e later hv => by simp [write?, ho, hv]) ?_
    intro result later hv hafter last hmem
    rw [hafter] at hmem
    cases hmem
    simp only [Event.Follows, Event.write?, write?, ho, hv]
    rfl
  | _ => exact .of_moving hafter (by simp [write?, ho]) (.raise _ _)

theorem threads_call (callee : Expr) (arguments : List Expr) (line : Nat) :
    Threads ⟨n + 1, m, .expression (.call callee arguments line)⟩ m
      ((Expr.call callee arguments line).children n m) := by
  refine .bind (.refl m) rfl rfl (fun _ _ _ => rfl) fun c after _ hafter => ?_
  refine .bind (.refl after) rfl hafter (fun _ _ _ => rfl) fun values later _ hafter => ?_
  cases harity : c.arity? with
  | none =>
    simp only [harity] at hafter
    rw [if_neg (fun h => nomatch h.1)]
    exact .of_moving hafter rfl (.raise _ _)
  | some arity =>
    simp only [harity] at hafter
    by_cases hlength : values.length = arity
    · rw [if_pos hlength, asCall_apply] at hafter
      by_cases hdepth : later.maxCallDepth ≤ later.callDepth
      · rw [if_pos hdepth] at hafter
        rw [if_neg (fun h => Nat.not_lt.2 hdepth h.2)]
        exact .of_state hafter rfl
      · rw [if_neg hdepth, state?_afterwards] at hafter
        rw [if_pos ⟨congrArg some hlength.symm, Nat.lt_of_not_le hdepth⟩]
        exact .last (.of_eq rfl rfl rfl rfl) hafter rfl fun _ => .of_eq rfl rfl rfl rfl
    · rw [if_neg hlength] at hafter
      rw [if_neg (fun h => hlength (Option.some.inj h.1).symm)]
      exact .of_moving hafter rfl (.raise _ _)

theorem threads_expression (e : Expr) (he : e.Ordinary) :
    Threads ⟨n + 1, m, .expression e⟩ m (e.children n m) := by
  cases e with
  | literal value => exact .of_state rfl rfl
  | grouping inner => exact .same (.refl m) rfl rfl
  | unary operator operand line => exact .single (.refl m) rfl rfl rfl fun _ _ => .located _ _
  | binary left operator right line =>
    refine .bind (.refl m) rfl rfl (fun _ _ _ => rfl) fun a after _ hafter => ?_
    exact .single (.refl after) rfl hafter rfl fun _ _ => .located _ _
  | logical left operator right =>
    refine .bind (.refl m) rfl rfl (fun _ _ _ => rfl) fun a after _ hafter => ?_
    by_cases hd : operator.decides a = true
    · simp only [hd, if_true] at hafter ⊢
      exact .of_state hafter rfl
    · simp only [if_neg hd] at hafter ⊢
      exact .same (.refl after) hafter rfl
  | reference target => exact .of_moving rfl rfl (.valueOf _ _ _)
  | assign target value =>
    exact .single (.refl m) rfl rfl rfl fun _ _ => .bind (assign_moves he.1 _) fun _ _ _ => .pure _
  | call callee arguments line => exact threads_call callee arguments line
  | get object name =>
    refine .closing (.refl m) rfl rfl (fun _ _ _ => rfl) fun found after _ hafter => ?_
    cases found with
    | ofInstance object => exact .of_moving hafter rfl (.property _ _)
    | _ => exact .of_moving hafter rfl (.raise _ _)
  | set object name value => exact threads_set object name value
  | this id line => exact .of_moving rfl rfl (.valueOf _ _ _)
  | super id line method => exact .of_moving rfl rfl (.superMethod _ _ _)

/-! ### Statements and calls -/

theorem threads_initial (name : Identifier) (initial : Option Expr)
    (hname : OrdinaryName name.text) :
    Threads ⟨n + 1, m, .statement (.var name initial)⟩ m ((Stmt.var name initial).children n m) := by
  cases initial with
  | none =>
    exact .of_moving (x := (Stmt.var name none).execute (n + 1)) rfl rfl
      (.bind (.pure _) fun _ _ _ => .bind (define_moves hname _) fun _ _ _ => .pure _)
  | some value =>
    exact .single (.refl m) rfl rfl rfl fun _ _ => .bind (define_moves hname _) fun _ _ _ => .pure _

theorem threads_conditional (condition : Expr) (thenBranch : Stmt) (elseBranch : Option Stmt) :
    Threads ⟨n + 1, m, .statement (.conditional condition thenBranch elseBranch)⟩ m
      ((Stmt.conditional condition thenBranch elseBranch).children n m) := by
  refine .bind (.refl m) rfl rfl (fun _ _ _ => rfl) fun a after _ hafter => ?_
  by_cases ha : a.isTruthy = true
  · simp only [ha, if_true] at hafter ⊢
    exact .same (.refl after) hafter rfl
  · simp only [if_neg ha] at hafter ⊢
    cases elseBranch with
    | none => exact .of_state hafter rfl
    | some elseBranch => exact .same (.refl after) hafter rfl

theorem moving_classDef (name : Identifier) (superclass : Option Reference)
    (methods : List FunctionDef) (hname : OrdinaryName name.text) :
    Leads Machine.Moves m ((Stmt.classDef name superclass methods).execute (n + 1)) := by
  rw [Stmt.execute_classDef]
  refine .bind (.superclass? superclass) fun c _ _ => .bind (define_moves hname _) fun _ _ _ => ?_
  refine .bind (.methodClosure c) fun closure _ _ => .bind (.freshIdentity _) fun id _ _ => ?_
  exact .bind (define_moves hname _) fun _ _ _ => .pure _

theorem threads_classDef (name : Identifier) (superclass : Option Reference)
    (methods : List FunctionDef) (hname : OrdinaryName name.text) :
    Threads ⟨n + 1, m, .statement (.classDef name superclass methods)⟩ m
      ((Stmt.classDef name superclass methods).children n m) := by
  cases superclass with
  | none => exact .of_moving (α := Completion) rfl rfl (moving_classDef (n := n) name none methods hname)
  | some target =>
    have hd : Configuration.after? ⟨n + 1, m, .expression (.reference target)⟩ = some m := by
      show (valueOf target.id target.name.text target.name.line m).state? = _
      rw [valueOf_apply]
      cases m.valueOf? target.id target.name.text <;> rfl
    refine ⟨.refl m, ?_⟩
    rw [hd]
    exact .of_moving (α := Completion) rfl rfl (moving_classDef (n := n) name (some target) methods hname)

theorem threads_statement (s : Stmt) (hs : s.Ordinary) :
    Threads ⟨n + 1, m, .statement s⟩ m (s.children n m) := by
  match s with
  | .expression value => exact .single (.refl m) rfl rfl rfl fun _ _ => .pure _
  | .print value =>
    exact .single (.refl m) rfl rfl rfl fun _ _ => .bind (.write _ _) fun _ _ _ =>
      .bind (.write _ _) fun _ _ _ => .pure _
  | .var name initial => exact threads_initial name initial hs.1
  | .block body =>
    refine .last (g := fun after => { after with environment := m.environment }) ?_ ?_ rfl
      fun _ => .of_eq rfl rfl rfl rfl
    · exact (Machine.Moves.withStore (.push m.store ∅)).trans (.of_eq rfl rfl rfl rfl)
    · exact state?_afterwards _ _ _
  | .conditional condition thenBranch elseBranch =>
    exact threads_conditional condition thenBranch elseBranch
  | .whileLoop condition body => exact .same (.refl m) rfl rfl
  | .function declaration =>
    have hname : OrdinaryName declaration.name.text := by
      obtain ⟨name, params, body⟩ := declaration
      exact hs.1
    exact .of_moving (x := (Stmt.function declaration).execute (n + 1)) rfl rfl
      (.bind (.read _) fun _ _ _ => .bind (.freshIdentity 1) fun _ _ _ =>
        .bind (define_moves hname _) fun _ _ _ => .pure _)
  | .ret _ none => exact .of_state rfl rfl
  | .ret _ (some value) => exact .single (.refl m) rfl rfl rfl fun _ _ => .pure _
  | .classDef name superclass methods => exact threads_classDef name superclass methods hs.1

theorem threads_application (callee : Value) (arguments : List Value) (line : Nat) :
    Threads ⟨n + 1, m, .application callee arguments line⟩ m
      (callee.children n m arguments line) := by
  cases callee with
  | native f => exact .of_moving rfl rfl (.callHost _ _ _)
  | function f => exact .same (.refl m) rfl rfl
  | ofClass c =>
    have hafter : Configuration.after? ⟨n + 1, m, .application (.ofClass c) arguments line⟩ =
      ((Value.ofClass c).apply (n + 1) arguments line m).state? := rfl
    rw [Value.apply] at hafter
    cases hinit : c.initializer? with
    | none =>
      simp only [hinit] at hafter
      simp only [Value.children, hinit]
      exact .of_moving hafter rfl (.bind (.instantiate c) fun _ _ _ => .pure _)
    | some f =>
      simp only [hinit] at hafter
      simp only [Value.children, hinit]
      refine .single ?_ rfl hafter rfl fun _ _ => .pure _
      exact (Machine.Moves.instantiate m).trans (Leads.bindMethod f ⟨m.fields.size, c⟩ _ rfl)
  | _ => exact .of_moving (α := Value) rfl rfl (.raise .notCallable line)

theorem threads_entry (f : Function) (arguments : List Value) (line : Nat) :
    Threads ⟨n + 1, m, .entry f arguments line⟩ m
      (Configuration.children ⟨n + 1, m, .entry f arguments line⟩) := by
  have hafter : Configuration.after? ⟨n + 1, m, .entry f arguments line⟩ =
    (f.enter (n + 1) arguments line m).state? := rfl
  rw [Function.enter_succ] at hafter
  refine .enclosed (y := callBody n f arguments) ?_ rfl rfl hafter rfl
    (fun _ => .of_eq rfl rfl rfl rfl) fun _ _ => .callResult f line _
  exact (Machine.Moves.withStore (.push m.store _)).trans (.of_eq rfl rfl rfl rfl)

theorem threads_statements (s : Stmt) (rest : List Stmt) :
    Threads ⟨n + 1, m, .statements (s :: rest)⟩ m
      (Configuration.children ⟨n + 1, m, .statements (s :: rest)⟩) := by
  refine .bind (.refl m) rfl rfl (fun _ _ _ => rfl) fun completion after _ hafter => ?_
  cases completion with
  | normal => exact .same (.refl after) hafter rfl
  | returned value => exact .of_state hafter rfl

theorem threads_loop (condition : Expr) (body : Stmt) :
    Threads ⟨n + 1, m, .loop condition body⟩ m
      (Configuration.children ⟨n + 1, m, .loop condition body⟩) := by
  refine .bind (.refl m) rfl rfl (fun _ _ _ => rfl) fun a after _ hafter => ?_
  by_cases ha : a.isTruthy = true
  · simp only [ha, if_true] at hafter ⊢
    refine .bind (.refl after) rfl hafter (fun _ _ _ => rfl) fun completion later _ hafter => ?_
    cases completion with
    | normal => exact .same (.refl later) hafter rfl
    | returned value => exact .of_state hafter rfl
  · simp only [if_neg ha] at hafter ⊢
    exact .of_state hafter rfl

end

/-- The parts of a task follow one another. -/
theorem threads (h : c.Under .ofReading) : c.Threads c.machine c.children := by
  obtain ⟨n, m, task⟩ := c
  have hw : ∀ n statements, Configuration.write? ⟨n, m, .program statements⟩ = none := by
    intro n statements
    cases n <;> rfl
  match n, task with
  | n + 1, .expression e => exact threads_expression e h.2
  | n + 1, .arguments [] => exact .of_state rfl rfl
  | n + 1, .arguments (e :: rest) =>
    refine .bind (.refl m) rfl rfl (fun _ _ _ => rfl) fun a after _ hafter => ?_
    exact .single (.refl after) rfl hafter rfl fun _ _ => .pure _
  | n + 1, .application callee arguments line => exact threads_application callee arguments line
  | n + 1, .entry f arguments line => exact threads_entry f arguments line
  | n + 1, .statement s => exact threads_statement s h.2.ordinary
  | n + 1, .statements [] => exact .of_state rfl rfl
  | n + 1, .statements (s :: rest) => exact threads_statements s rest
  | n + 1, .loop condition body => exact threads_loop condition body
  | 0, .expression _ | 0, .arguments _ | 0, .application _ _ _ | 0, .entry _ _ _ | 0, .statement _
  | 0, .statements _ | 0, .loop _ _ => exact nofun
  | n, .program [] =>
    have hnone : Configuration.children ⟨n, m, .program []⟩ = [] := by cases n <;> rfl
    rw [hnone]
    exact .of_state rfl (hw n [])
  | n, .program (s :: rest) =>
    rw [children]
    refine .bind (.refl m) rfl rfl (fun _ _ _ => hw n _) fun completion after _ hafter => ?_
    exact .same (.refl after) hafter (hw n _)

/-! ### The whole run -/

/-- The events of a task follow one another, and the machine that the task leaves behind is the one at
the last of them. -/
structure Traced (c : Configuration) : Prop where
  path : Event.Path c.machine c.trace
  last : ∀ after, c.after? = some after → Event.last c.machine c.trace = after

/-- The machine may have moved before the task begins. -/
theorem Traced.of_moves (h : d.Traced) (hmoves : m.Moves d.machine) :
    Event.Path m d.trace ∧ Event.last m d.trace = Event.last d.machine d.trace := by
  have hpath := h.path
  rw [trace_eq, List.cons_append] at hpath ⊢
  exact ⟨⟨.of_moves hmoves rfl, hpath.2⟩, rfl⟩

theorem Threads.path {parts : List Configuration} (h : c.Threads m parts)
    (hparts : ∀ d ∈ parts, d.Traced) :
    Event.Path m (parts.flatMap trace ++ (c.after?.map (.ends c)).toList) ∧ ∀ after,
      c.after? = some after →
        Event.last m (parts.flatMap trace ++ (c.after?.map (.ends c)).toList) = after := by
  induction parts generalizing m with
  | nil =>
    cases hafter : c.after? with
    | none => exact ⟨trivial, nofun⟩
    | some after =>
      refine ⟨⟨h after hafter, trivial⟩, ?_⟩
      rintro _ ⟨⟩
      rfl
  | cons d rest ih =>
    obtain ⟨hmoves, hrest⟩ := h
    have hd := hparts d (.head _)
    obtain ⟨hpath, hlast⟩ := hd.of_moves hmoves
    rw [List.flatMap_cons, List.append_assoc, Event.Path.append_iff, Event.last_append, hlast]
    cases hafter : d.after? with
    | none =>
      rw [hafter] at hrest
      obtain ⟨rfl, hnone⟩ := hrest
      rw [hnone]
      exact ⟨⟨hpath, trivial⟩, nofun⟩
    | some after =>
      rw [hafter] at hrest
      rw [hd.last after hafter]
      obtain ⟨hpath', hlast'⟩ := ih hrest fun e he => hparts e (.tail _ he)
      exact ⟨⟨hpath, hpath'⟩, hlast'⟩

/-- The events of every task that is under the regime follow one another. -/
theorem Under.traced (h : c.Under .ofReading) : c.Traced := by
  induction c using induction with
  | h c ih =>
    have hparts : ∀ d ∈ c.children, d.Traced := fun d hd =>
      ih d (starts_of_mem_children hd) (h.starts (starts_of_mem_children hd))
    obtain ⟨hpath, hlast⟩ := (threads h).path hparts
    constructor
    · rw [trace_eq, List.cons_append]
      exact ⟨.of_moves (.refl _) rfl, hpath⟩
    · rw [trace_eq, List.cons_append]
      exact hlast

end Configuration

end Lox
