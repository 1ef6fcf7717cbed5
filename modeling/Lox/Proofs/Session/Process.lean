import Lox.Proofs.Grammar.Numbers
import Lox.Proofs.Session.Regimes

/-!
# Processes

A process has any number of sessions, and reads any number of programs and expressions besides what
these run. All reading takes node numbers from the same counter. So no number is ever at two nodes,
and the functions of a session come from trees that reading has returned.
-/

namespace Lox

open Procedure

/-! ### Trees -/

/-- What reading returns. -/
inductive Tree where
  | program (statements : List Stmt)
  | expression (e : Expr)

namespace Tree

def nodes : Tree → List NodeId
  | program statements => Stmt.nodesAll statements
  | expression e => e.nodes

/-- The functions and methods that are declared in the tree. -/
def functions : Tree → List FunctionDef
  | program statements => Stmt.functionsAll statements
  | expression _ => []

/-- No node number is in two places of the trees: each is at one node, and two functions with a
number in common are one inside the other. -/
structure Distinct (trees : List Tree) : Prop where
  nodup : (trees.flatMap nodes).Nodup
  sublist : ∀ f ∈ trees.flatMap functions, (Stmt.functionNodes f).Sublist (trees.flatMap nodes)
  nested : ∀ f ∈ trees.flatMap functions, ∀ g ∈ trees.flatMap functions,
    ∀ id ∈ Stmt.functionNodes f, id ∈ Stmt.functionNodes g →
      f ∈ Stmt.functionsOf g ∨ g ∈ Stmt.functionsOf f

theorem encloses (trees : List Tree) :
    Stmt.Encloses (trees.flatMap functions) (trees.flatMap nodes) := by
  induction trees with
  | nil => exact .nil _
  | cons tree rest ih =>
    rw [List.flatMap_cons, List.flatMap_cons]
    refine Stmt.Encloses.append ?_ ih
    cases tree with
    | program statements => exact Stmt.enclosesAll statements
    | expression e => exact .nil _

theorem distinct_of_nodup {trees : List Tree} (h : (trees.flatMap nodes).Nodup) : Distinct trees :=
  ⟨h, (encloses trees).sublist, (encloses trees).nested h⟩

end Tree

/-- Only the functions that these trees declare may be declared. -/
def Regime.ofTrees (trees : List Tree) : Regime :=
  .ofCode (· ∈ trees.flatMap Tree.functions) fun f hf _ hg =>
    (Tree.encloses trees).inside f hf (Stmt.ownFunctionsAll_subset f.body hg)

/-- All functions in the variables and fields of the machine, and all methods of the classes there,
are among these. -/
structure Machine.FunctionsIn (declarations : List FunctionDef) (m : Machine) : Prop where
  store : ∀ scope name value, m.store.get? scope name = some value →
    value.Every (·.declaration ∈ declarations) (·.declaration ∈ declarations)
  fields : ∀ object name value, m.fields.get? object name = some value →
    value.Every (·.declaration ∈ declarations) (·.declaration ∈ declarations)

section Regimes

variable {trees more : List Tree} {m : Machine}

theorem Machine.Under.functionsIn (h : m.Under (.ofTrees trees)) :
    m.FunctionsIn (trees.flatMap Tree.functions) where
  store scope name value hv :=
    Value.Every.mono (fun _ hf => hf.2) (fun _ hf => hf.2) (h.store scope name value hv)
  fields object name value hv :=
    Value.Every.mono (fun _ hf => hf.2) (fun _ hf => hf.2) (h.fields object name value hv)

/-- With more trees there may be more functions. -/
theorem Machine.Under.append (h : m.Under (.ofTrees trees)) (more : List Tree)
    (hpassive : ∀ f ∈ m.hostFunctions, HostFunction.Passive f) :
    m.Under (.ofTrees (trees ++ more)) := by
  have hmono : ∀ f : FunctionDef, Stmt.OrdinaryFunction f ∧ f ∈ trees.flatMap Tree.functions →
      Stmt.OrdinaryFunction f ∧ f ∈ (trees ++ more).flatMap Tree.functions := by
    intro f hf
    rw [List.flatMap_append]
    exact ⟨hf.1, List.mem_append_left _ hf.2⟩
  refine ⟨h.global, fun scope name value hv => ?_, fun object name value hv => ?_,
    fun f hf => (hpassive f hf).under _⟩
  · exact Value.Every.mono (fun _ hf => hmono _ hf) (fun _ hf => hmono _ hf)
      (h.store scope name value hv)
  · exact Value.Every.mono (fun _ hf => hmono _ hf) (fun _ hf => hmono _ hf)
      (h.fields object name value hv)

/-- A program is under the regime of the trees that it is one of. -/
theorem Regime.underAll_ofTrees {statements : List Stmt} (ho : Stmt.OrdinaryAll statements)
    (h : .program statements ∈ trees) : Stmt.UnderAll (.ofTrees trees) statements := by
  refine ⟨ho, fun f hf => ⟨ho.ownFunctionsAll f hf, ?_⟩⟩
  exact List.mem_flatMap.2 ⟨_, h, Stmt.ownFunctionsAll_subset statements hf⟩

end Regimes

/-! ### Steps of a process -/

structure Process where
  /-- The machines of the sessions. -/
  machines : List Machine
  /-- The next node number. -/
  nextId : NodeId
  /-- What reading has returned so far. -/
  trees : List Tree

namespace Process

/-- The process after reading, with the tree that was returned, if any. -/
def took {α : Type} (p : Process) (reading : Reading α) (tree : α → Tree) : Process where
  machines := p.machines
  nextId := reading.nextId
  trees := p.trees ++ match reading.result with
    | .ok t => [tree t]
    | .error _ => []

/-- The process with another machine in the place `i`. -/
def withMachine (p : Process) (i : Nat) (m : Machine) : Process :=
  { p with machines := p.machines.set i m }

/-- What a process can do: begin a session, make a function of the host known to one, read tokens as
a program or as an expression, and run or evaluate a text in a session. -/
inductive Step : Process → Process → Prop where
  | start {p : Process} (now : Number) (output : Output) :
      Step p { p with machines := p.machines ++ [((Session.start now).withOutput output).machine] }
  | register {p : Process} {i : Nat} {m : Machine} (name : String) (arity : Nat) {f : HostFunction}
      (hm : p.machines[i]? = some m) (hf : f.Passive) :
      Step p (p.withMachine i (m.register name arity f))
  | read {p : Process} (tokens : List Token) :
      Step p (p.took (Reading.ofTokens tokens p.nextId) .program)
  | readExpression {p : Process} (tokens : List Token) :
      Step p (p.took (Reading.expressionOfTokens tokens p.nextId) .expression)
  | run {p : Process} {i bound : Nat} {m : Machine} {source : String} {t : Session}
      (hm : p.machines[i]? = some m)
      (hrun : (Session.run bound source ⟨m, p.nextId⟩).state? = some t) :
      Step p ((p.took (Reading.ofTokens (Scan.ofText source).tokens p.nextId) .program).withMachine i
        t.machine)
  | evaluate {p : Process} {i bound : Nat} {m : Machine} {source : String} {t : Session}
      (hm : p.machines[i]? = some m)
      (hrun : (Session.evaluate bound source ⟨m, p.nextId⟩).state? = some t) :
      Step p ((p.took (Reading.expressionOfSource source p.nextId) .expression).withMachine i
        t.machine)

/-- The second process comes from the first one. -/
abbrev Later : Process → Process → Prop := Relation.ReflTransGen Step

/-- The process comes from a new one, which has no session and has read nothing. -/
def Reached (p : Process) : Prop := Later ⟨[], 0, []⟩ p

end Process

/-! ### Runs -/

namespace Session

variable {s t : Session} {bound : Nat} {source : String}

theorem nextId_of_run (hrun : (run bound source s).state? = some t) :
    t.nextId = (Reading.ofSource source s.nextId).nextId := by
  cases hread : (Reading.ofSource source s.nextId).result with
  | error faults =>
    rw [run_of_unread bound hread] at hrun
    cases hrun
    rfl
  | ok statements =>
    cases hresolve : resolve statements with
    | error faults =>
      rw [run_of_unresolved bound hread hresolve] at hrun
      cases hrun
      rfl
    | ok found =>
      rw [run_of_resolve bound hread hresolve, state?_onMachine] at hrun
      obtain ⟨m, -, rfl⟩ := Option.map_eq_some_iff.1 hrun
      rfl

/-- A run changes no function of the host, and records depths for new numbers only. -/
theorem kept_of_run (hs : s.Unnumbered) (hrun : (run bound source s).state? = some t) :
    t.machine.hostFunctions = s.machine.hostFunctions ∧ t.Unnumbered ∧
      ∀ id < s.nextId, t.machine.depths[id]? = s.machine.depths[id]? := by
  rcases cases_of_run hrun with ⟨k, hk, rfl⟩ | ⟨statements, u, m, -, hu, hm, rfl⟩
  · exact ⟨rfl, fun id hid => hs id (Nat.le_trans hk hid), fun _ _ => rfl⟩
  · obtain ⟨found, -, hmachine⟩ := hu.machine
    have hrestored := restores_runProgram bound statements u.machine m hm
    refine ⟨hrestored.hostFunctions.trans (by rw [hmachine]), fun id hid => ?_, fun id hid => ?_⟩
    · show m.depths[id]? = none
      rw [hrestored.depths]
      exact hu.unnumbered hs id hid
    · show m.depths[id]? = s.machine.depths[id]?
      rw [hrestored.depths]
      exact hu.depths_of_lt hs hid

/-- A text is turned down as an expression, or it is evaluated. -/
theorem evaluate_cases (bound : Nat) (source : String) (s : Session) :
    (∃ faults, evaluate bound source s = .error (.rejected faults)
      { s with nextId := (Reading.expressionOfSource source s.nextId).nextId }) ∨
    ∃ e, (Reading.expressionOfSource source s.nextId).result = .ok e ∧
      evaluate bound source s = onMachine (e.evaluate bound)
        { s with nextId := (Reading.expressionOfSource source s.nextId).nextId } := by
  cases hread : (Reading.expressionOfSource source s.nextId).result with
  | error faults => exact .inl ⟨faults, by simp only [evaluate, bind_apply, accept, hread]⟩
  | ok e => exact .inr ⟨e, rfl, by simp only [evaluate, bind_apply, accept, hread]⟩

/-- Evaluation of a text changes no function of the host and records no depths, and the machine
stays under every regime. -/
theorem kept_of_evaluate (hrun : (evaluate bound source s).state? = some t) :
    t.nextId = (Reading.expressionOfSource source s.nextId).nextId ∧
      t.machine.hostFunctions = s.machine.hostFunctions ∧ t.machine.depths = s.machine.depths ∧
      ∀ r, s.machine.Under r → t.machine.Under r := by
  rcases evaluate_cases bound source s with ⟨faults, he⟩ | ⟨e, hread, he⟩
  · rw [he] at hrun
    cases hrun
    exact ⟨rfl, rfl, rfl, fun _ h => h⟩
  · rw [he, state?_onMachine] at hrun
    obtain ⟨m, hm, rfl⟩ := Option.map_eq_some_iff.1 hrun
    have hrestored := (runsRestore bound).evaluate e s.machine m hm
    refine ⟨rfl, hrestored.hostFunctions, hrestored.depths, fun r h => ?_⟩
    have habides := (abidesAt r bound).evaluate e h (Reading.ordinary_of_expressionOfSource hread)
    exact (habides.of_state hm).1

end Session

namespace Process

/-! ### What every step keeps -/

/-- Node numbers are distinct and have been taken, functions come from the trees, and no depth is
recorded for a number that is still to be taken. -/
structure Sound (p : Process) : Prop where
  nodup : (p.trees.flatMap Tree.nodes).Nodup
  lt : ∀ id ∈ p.trees.flatMap Tree.nodes, id < p.nextId
  under : ∀ m ∈ p.machines, m.Under (.ofTrees p.trees)
  passive : ∀ m ∈ p.machines, ∀ f ∈ m.hostFunctions, HostFunction.Passive f
  unnumbered : ∀ m ∈ p.machines, Session.Unnumbered ⟨m, p.nextId⟩

/-- What is recorded for the nodes of these trees is the same in both machines. -/
def Records (trees : List Tree) (m n : Machine) : Prop :=
  ∀ tree ∈ trees, ∀ id ∈ tree.nodes, n.depths[id]? = m.depths[id]?

namespace Sound

variable {p q : Process} {α : Type} {reading : Reading α} {nodes : α → List NodeId}
  {tree : α → Tree}

/-- New numbers, taken together with those of all trees before. -/
theorem numbered_took (h : p.Sound) (hfresh : reading.Fresh p.nextId nodes)
    (hnodes : ∀ t, (tree t).nodes = nodes t) :
    ((p.took reading tree).trees.flatMap Tree.nodes).Nodup ∧
      ∀ id ∈ (p.took reading tree).trees.flatMap Tree.nodes, id < reading.nextId := by
  have hbefore : Numbered 0 p.nextId (p.trees.flatMap Tree.nodes) :=
    ⟨Nat.zero_le _, h.nodup, fun id hid => ⟨Nat.zero_le id, h.lt id hid⟩⟩
  have htaken : Numbered 0 reading.nextId ((p.took reading tree).trees.flatMap Tree.nodes) := by
    rw [took, List.flatMap_append]
    refine hbefore.append ?_
    cases hresult : reading.result with
    | error faults => exact .nil hfresh.le
    | ok t =>
      rw [List.flatMap_singleton, hnodes]
      exact hfresh.numbered t hresult
  exact ⟨htaken.nodup, fun id hid => (htaken.mem id hid).2⟩

/-- Reading something. -/
theorem took (h : p.Sound) (hfresh : reading.Fresh p.nextId nodes)
    (hnodes : ∀ t, (tree t).nodes = nodes t) : (p.took reading tree).Sound where
  nodup := (h.numbered_took hfresh hnodes).1
  lt := (h.numbered_took hfresh hnodes).2
  under m hm := (h.under m hm).append _ (h.passive m hm)
  passive := h.passive
  unnumbered m hm id hid := h.unnumbered m hm id (Nat.le_trans hfresh.le hid)

/-- Replacing a machine. -/
theorem withMachine (h : p.Sound) (i : Nat) {m : Machine} (hunder : m.Under (.ofTrees p.trees))
    (hpassive : ∀ f ∈ m.hostFunctions, HostFunction.Passive f)
    (hunnumbered : Session.Unnumbered ⟨m, p.nextId⟩) : (p.withMachine i m).Sound where
  nodup := h.nodup
  lt := h.lt
  under n hn := by
    rcases List.mem_or_eq_of_mem_set hn with hn | rfl
    · exact h.under n hn
    · exact hunder
  passive n hn := by
    rcases List.mem_or_eq_of_mem_set hn with hn | rfl
    · exact h.passive n hn
    · exact hpassive
  unnumbered n hn := by
    rcases List.mem_or_eq_of_mem_set hn with hn | rfl
    · exact h.unnumbered n hn
    · exact hunnumbered

theorem ofTokens_of_ofSource {source : String} {firstId : NodeId} {statements : List Stmt}
    (h : (Reading.ofSource source firstId).result = .ok statements) :
    (Reading.ofTokens (Scan.ofText source).tokens firstId).result = .ok statements := by
  simp only [Reading.ofSource] at h
  split at h
  · next hread =>
    split at h
    · cases h
      exact hread
    · cases h
  · cases h

theorem mem_trees_took {t : α} (h : reading.result = .ok t) :
    tree t ∈ (p.took reading tree).trees := by
  rw [Process.took, h]
  exact List.mem_append_right _ (.head _)

/-- Running a text. -/
theorem run (h : p.Sound) {i bound : Nat} {m : Machine} {source : String} {t : Session}
    (hm : p.machines[i]? = some m)
    (hrun : (Session.run bound source ⟨m, p.nextId⟩).state? = some t) :
    ((p.took (Reading.ofTokens (Scan.ofText source).tokens p.nextId) .program).withMachine i
      t.machine).Sound := by
  have hmem := List.mem_of_getElem? hm
  obtain ⟨hhost, hunnumbered, -⟩ := Session.kept_of_run (h.unnumbered m hmem) hrun
  have hpassive := h.passive m hmem
  refine (h.took (Reading.fresh_ofTokens _ _) fun _ => rfl).withMachine i ?_ ?_ ?_
  · refine Session.under_of_run (s := ⟨m, p.nextId⟩) ((h.under m hmem).append _ hpassive)
      (fun statements hread => ?_) hrun
    exact Regime.underAll_ofTrees (Session.ordinary_of_ofSource hread)
      (mem_trees_took (ofTokens_of_ofSource hread))
  · rw [hhost]
    exact hpassive
  · intro id hid
    refine hunnumbered id ?_
    rw [Session.nextId_of_run hrun]
    exact hid

/-- Evaluating a text. -/
theorem evaluate (h : p.Sound) {i bound : Nat} {m : Machine} {source : String} {t : Session}
    (hm : p.machines[i]? = some m)
    (hrun : (Session.evaluate bound source ⟨m, p.nextId⟩).state? = some t) :
    ((p.took (Reading.expressionOfSource source p.nextId) .expression).withMachine i
      t.machine).Sound := by
  have hmem := List.mem_of_getElem? hm
  obtain ⟨-, hhost, hdepths, hunder⟩ := Session.kept_of_evaluate hrun
  have hfresh := Reading.fresh_expressionOfSource source p.nextId
  refine (h.took hfresh fun _ => rfl).withMachine i ?_ ?_ ?_
  · exact hunder _ ((h.under m hmem).append _ (h.passive m hmem))
  · rw [hhost]
    exact h.passive m hmem
  · intro id hid
    show t.machine.depths[id]? = none
    rw [hdepths]
    exact h.unnumbered m hmem id (Nat.le_trans hfresh.le hid)

/-- A process stays sound in every step. -/
theorem step (h : p.Sound) (hpq : Step p q) : q.Sound := by
  cases hpq with
  | start now output =>
    refine ⟨h.nodup, h.lt, fun m hm => ?_, fun m hm => ?_, fun m hm => ?_⟩
    all_goals rcases List.mem_append.1 hm with hm | hm
    · exact h.under m hm
    · rw [List.mem_singleton.1 hm]
      exact Session.under_start _ now output
    · exact h.passive m hm
    · rw [List.mem_singleton.1 hm]
      exact (Session.Sound.start now output).machine.hostFunctions
    · exact h.unnumbered m hm
    · rw [List.mem_singleton.1 hm]
      exact fun id _ => (Session.Sound.start now output).unnumbered id (Nat.zero_le id)
  | @register i m name arity f hm hf =>
    have hmem := List.mem_of_getElem? hm
    refine h.withMachine i ((h.under m hmem).register name arity (hf.under _)) (fun g hg => ?_)
      (h.unnumbered m hmem)
    rcases Array.mem_push.1 hg with hg | rfl
    · exact h.passive m hmem g hg
    · exact hf
  | read tokens => exact h.took (Reading.fresh_ofTokens tokens p.nextId) fun _ => rfl
  | readExpression tokens =>
    exact h.took (Reading.fresh_expressionOfTokens tokens p.nextId) fun _ => rfl
  | run hm hrun => exact h.run hm hrun
  | evaluate hm hrun => exact h.evaluate hm hrun

theorem later (h : p.Sound) (hpq : Later p q) : q.Sound := by
  induction hpq with
  | refl => exact h
  | tail _ hstep ih => exact ih.step hstep

end Sound

theorem Reached.sound {p : Process} (h : p.Reached) : p.Sound := by
  have hstart : Sound ⟨[], 0, []⟩ := ⟨List.nodup_nil, nofun, nofun, nofun, nofun⟩
  exact hstart.later h

/-! ### Recorded depths -/

section Recorded

variable {p q : Process}

/-- The machine in the place `j`, when that in the place `i` is replaced by one that has recorded
the same for the numbers below `limit`. -/
theorem exists_withMachine {i j : Nat} {limit : NodeId} {m n new : Machine}
    (hm : p.machines[i]? = some m) (hnew : ∀ id < limit, new.depths[id]? = m.depths[id]?)
    (hn : p.machines[j]? = some n) :
    ∃ later, (p.withMachine i new).machines[j]? = some later ∧
      ∀ id < limit, later.depths[id]? = n.depths[id]? := by
  by_cases hij : i = j
  · subst hij
    obtain rfl : m = n := Option.some.inj (hm.symm.trans hn)
    exact ⟨new, List.getElem?_set_self (List.getElem?_eq_some_iff.1 hm).1, hnew⟩
  · exact ⟨n, (List.getElem?_set_ne hij).trans hn, fun _ _ => rfl⟩

/-- No step changes what is recorded for a number that was taken before it. -/
theorem Step.depths_eq (h : Step p q) (hp : p.Sound) {j : Nat} {n : Machine}
    (hn : p.machines[j]? = some n) :
    ∃ later, q.machines[j]? = some later ∧
      ∀ id < p.nextId, later.depths[id]? = n.depths[id]? := by
  cases h with
  | start now output =>
    have hlt := (List.getElem?_eq_some_iff.1 hn).1
    exact ⟨n, (List.getElem?_append_left hlt).trans hn, fun _ _ => rfl⟩
  | register name arity hm hf => exact exists_withMachine hm (fun _ _ => rfl) hn
  | read | readExpression => exact ⟨n, hn, fun _ _ => rfl⟩
  | run hm hrun =>
    have hkept := Session.kept_of_run (hp.unnumbered _ (List.mem_of_getElem? hm)) hrun
    exact exists_withMachine (p := p.took _ _) hm hkept.2.2 hn
  | evaluate hm hrun =>
    obtain ⟨-, -, hdepths, -⟩ := Session.kept_of_evaluate hrun
    exact exists_withMachine (p := p.took _ _) hm (fun id _ => by rw [hdepths]) hn

theorem Step.nextId_le (h : Step p q) : p.nextId ≤ q.nextId := by
  cases h with
  | start | register => exact Nat.le_refl _
  | read tokens | run => exact (Reading.fresh_ofTokens _ _).le
  | readExpression tokens => exact (Reading.fresh_expressionOfTokens _ _).le
  | evaluate => exact (Reading.fresh_expressionOfSource _ _).le

/-- Nor do any number of steps. -/
theorem Later.records (h : Later p q) (hp : p.Sound) {j : Nat} {n : Machine}
    (hn : p.machines[j]? = some n) :
    ∃ later, q.machines[j]? = some later ∧ Records p.trees n later := by
  have hlater : p.nextId ≤ q.nextId ∧ ∃ later, q.machines[j]? = some later ∧
      ∀ id < p.nextId, later.depths[id]? = n.depths[id]? := by
    induction h with
    | refl => exact ⟨Nat.le_refl _, n, hn, fun _ _ => rfl⟩
    | @tail u v hu hstep ih =>
      obtain ⟨hle, m, hm, hsame⟩ := ih
      obtain ⟨later, hmachine, hdepths⟩ := hstep.depths_eq (hp.later hu) hm
      refine ⟨Nat.le_trans hle hstep.nextId_le, later, hmachine, fun id hid => ?_⟩
      rw [hdepths id (Nat.lt_of_lt_of_le hid hle), hsame id hid]
  obtain ⟨-, later, hmachine, hsame⟩ := hlater
  exact ⟨later, hmachine, fun tree htree id hid =>
    hsame id (hp.lt id (List.mem_flatMap.2 ⟨tree, htree, hid⟩))⟩

end Recorded

end Process

end Lox
