import Lox.Proofs.Evaluation.CallLimit
import Lox.Proofs.Evaluation.Termination
import Lox.Proofs.Session.Regimes
import Lox.Proofs.Syntax.Equality

/-!
# Texts without loops

A text in which no loop is written is run to an end, whatever texts without loops were run before
it. If it would go on forever, then the limit on calls ends it.
-/

namespace Lox

open Procedure

namespace Session

/-- No loop is written in the text. -/
def Loopless (source : String) : Prop := ∀ t ∈ (Scan.ofText source).tokens, ¬ t.BeginsLoop

instance (source : String) : Decidable (Loopless source) :=
  inferInstanceAs (Decidable (∀ t ∈ (Scan.ofText source).tokens, ¬ t.BeginsLoop))

/-- A session that comes about from a new one by running texts without loops and by making functions
of the host known that bring in no function with a loop. -/
inductive ArisesLoopless : Session → Prop where
  | start (now : Number) (output : Output) : ArisesLoopless ((start now).withOutput output)
  | register {s : Session} (name : String) (arity : Nat) {f : HostFunction}
      (before : ArisesLoopless s) (hf : f.Under .loopFree) :
      ArisesLoopless { s with machine := s.machine.register name arity f }
  | run {s t : Session} {bound : Nat} {source : String} (before : ArisesLoopless s)
      (hsource : Loopless source) (hrun : (Session.run bound source s).state? = some t) :
      ArisesLoopless t

/-- The session with another limit on the nesting of calls. -/
def withCallLimit (limit : Nat) (s : Session) : Session :=
  { s with machine := s.machine.withCallLimit limit }

/-- Without a limit on calls the run of the text would go on forever: at no bound is it over, if the
limit is high enough. -/
def Endless (s : Session) (source : String) : Prop :=
  ∀ bound, ∃ limit, ∀ higher, limit ≤ higher →
    run bound source (s.withCallLimit higher) = .exhausted

variable {s t : Session} {source : String}

theorem loopFreeAll_of_ofSource {firstId : NodeId} {statements : List Stmt} (h : Loopless source)
    (hread : (Reading.ofSource source firstId).result = .ok statements) :
    Stmt.LoopFreeAll statements := by
  obtain ⟨⟨body, line, htokens, -, -, hprogram⟩, -⟩ := program_of_ofSource hread
  refine hprogram.loopFree fun t ht => h t ?_
  rw [htokens]
  exact List.mem_append_left _ ht

theorem ArisesLoopless.under (h : s.ArisesLoopless) : s.machine.Under .loopFree := by
  induction h with
  | start now output => exact under_start .loopFree now output
  | register name arity _ hf ih => exact ih.register name arity hf
  | run _ hsource hrun ih =>
    refine under_of_run ih (fun statements hread => ?_) hrun
    exact Regime.underAll_loopFree (ordinary_of_ofSource hread)
      (loopFreeAll_of_ofSource hsource hread)

theorem ArisesLoopless.idle (h : s.ArisesLoopless) : s.Idle := by
  induction h with
  | start now output => exact ⟨rfl, rfl, rfl⟩
  | register name arity _ _ ih => exact ⟨ih.environment, ih.callDepth, ih.maxCallDepth⟩
  | run _ _ hrun ih => exact ih.run hrun

/-- A text that is accepted is accepted in every session. -/
theorem exists_resolved (s : Session) (h : check source = .ok ()) :
    ∃ statements found, (Reading.ofSource source s.nextId).result = .ok statements ∧
      resolve statements = .ok found := by
  obtain ⟨tree, hread, hresolves⟩ := check_eq_ok_iff.1 h
  obtain ⟨statements, hstatements, hlike, -⟩ := ofSource_alike hread s.nextId
  obtain ⟨found, hfound⟩ := (resolves_congr hlike).1 hresolves
  exact ⟨statements, found, hstatements, hfound⟩

/-- An accepted text without loops comes to an end. -/
theorem ArisesLoopless.run_ends (hs : s.ArisesLoopless) (haccepted : check source = .ok ())
    (hsource : Loopless source) :
    (∃ t n, ∀ k, n ≤ k → Session.run k source s = .ok () t) ∨
      ∃ failure t n, ∀ k, n ≤ k → Session.run k source s = .error (.failed failure) t := by
  obtain ⟨statements, found, hread, hresolve⟩ := exists_resolved s haccepted
  have hspare :
      Machine.Spare 255 { s.machine with depths := s.machine.depths.insertMany found } := by
    refine ⟨hs.under.of_eq rfl rfl rfl, ?_⟩
    show s.machine.callDepth + 255 = s.machine.maxCallDepth
    rw [hs.idle.callDepth, hs.idle.maxCallDepth]
    rfl
  obtain ⟨outcome, hends, n, hsame⟩ := settles_runProgram hspare (ordinary_of_ofSource hread)
    (loopFreeAll_of_ofSource hsource hread)
  have hrun : ∀ k, n ≤ k → Session.run k source s = onMachine (fun _ => outcome)
      ⟨{ s.machine with depths := s.machine.depths.insertMany found },
        (Reading.ofSource source s.nextId).nextId⟩ := fun k hk => by
    rw [run_of_resolve k hread hresolve]
    simp only [onMachine, hsame k hk]
  cases outcome with
  | exhausted => exact absurd rfl hends
  | ok a after => exact .inl ⟨_, n, hrun⟩
  | error e after => exact .inr ⟨e, _, n, hrun⟩

/-- Under a higher limit on calls a text runs the same way, unless the limit ends the run. -/
theorem run_withCallLimit {bound limit : Nat} (hlimit : s.machine.maxCallDepth ≤ limit) :
    (∀ t, run bound source s = .ok () t →
      run bound source (s.withCallLimit limit) = .ok () (t.withCallLimit limit)) ∧
    ∀ failure t, run bound source s = .error (.failed failure) t →
      failure.fault = .stackOverflow ∨
        run bound source (s.withCallLimit limit) =
          .error (.failed failure) (t.withCallLimit limit) := by
  rcases run_cases bound source s with ⟨faults, k, hk, he⟩ | ⟨statements, u, hread, hp, he⟩
  · rw [he]
    exact ⟨fun t ht => (by cases ht), fun failure t ht => (by cases ht)⟩
  · obtain ⟨found, hresolve, -⟩ := hp.machine
    have hlifts := (Run.Lifts.closed limit).runProgram bound statements
      { s.machine with depths := s.machine.depths.insertMany found } hlimit
    have hlifted : run bound source (s.withCallLimit limit) =
      onMachine (runProgram bound statements)
        ⟨.withCallLimit limit { s.machine with depths := s.machine.depths.insertMany found },
          (Reading.ofSource source s.nextId).nextId⟩ :=
      run_of_resolve bound hread hresolve
    rw [run_of_resolve bound hread hresolve, hlifted]
    simp only [onMachine]
    cases ho : runProgram bound statements
        { s.machine with depths := s.machine.depths.insertMany found } with
    | ok a after =>
      rw [ho] at hlifts
      rw [hlifts.2]
      refine ⟨fun t ht => ?_, fun failure t ht => ?_⟩ <;> cases ht
      rfl
    | error e after =>
      rw [ho] at hlifts
      refine ⟨fun t ht => ?_, fun failure t ht => ?_⟩ <;> cases ht
      refine hlifts.imp_right fun hsame => ?_
      rw [hsame]
      rfl
    | exhausted => exact ⟨fun t ht => (by cases ht), fun failure t ht => (by cases ht)⟩

/-- The call `f()`. -/
def selfCall (id : NodeId) : Expr := .call (.reference ⟨id, ⟨"f", 1⟩⟩) [] 1

/-- The function `fun f() { f(); }`. -/
def selfCaller : FunctionDef := ⟨⟨"f", 1⟩, [], [.expression (selfCall 0)]⟩

/-- At no bound is the function over, if that many more calls may be nested. -/
theorem selfCall_exhausted (bound : Nat) {m : Machine} {id identity : Nat}
    (hid : m.depths[id]? = none) (hinner : m.depths[0]? = none)
    (hf : m.global? "f" = some (.function ⟨identity, selfCaller, .global, false⟩))
    (hroom : m.callDepth + bound ≤ m.maxCallDepth) :
    (selfCall id).evaluate bound m = .exhausted := by
  induction bound using Nat.strongRecOn generalizing m id with
  | _ bound ih =>
    rcases bound with _ | n
    · rfl
    rw [selfCall, Expr.evaluate]
    rcases n with _ | n
    · rfl
    have hcallee : (Expr.reference ⟨id, ⟨"f", 1⟩⟩).evaluate (n + 1) m =
        .ok (.function ⟨identity, selfCaller, .global, false⟩) m := Run.valueOf_global hid hf
    have harguments : evaluateAll (n + 1) [] m = .ok [] m := rfl
    have hfull : ¬ m.maxCallDepth ≤ m.callDepth := by omega
    rw [bind_apply_of_ok hcallee, bind_apply_of_ok harguments]
    show Run.asCall 1 (Function.enter n ⟨identity, selfCaller, .global, false⟩ [] 1) m = .exhausted
    rw [Run.asCall_apply, if_neg hfull, afterwards]
    rcases n with _ | n
    · rfl
    -- The body is the same call again, from a machine with one call more under way.
    have hbody : ∀ later : Machine, later.depths = m.depths → later.global? "f" = m.global? "f" →
        later.callDepth = m.callDepth + 1 → later.maxCallDepth = m.maxCallDepth →
        executeAll n selfCaller.body later = .exhausted := by
      intro later hdepths hglobal hcalls hlimit
      rcases n with _ | n
      · rfl
      refine bind_apply_of_exhausted ?_
      rcases n with _ | n
      · rfl
      refine bind_apply_of_exhausted ?_
      refine ih n (by omega) ?_ ?_ (hglobal.trans hf) ?_
      · rw [hdepths, hinner]
      · rw [hdepths, hinner]
      · rw [hcalls, hlimit]
        omega
    have hscope : 0 < m.store.size :=
      Store.Extends.get?_lt ((Machine.global?_eq m "f").symm.trans hf)
    have hglobal : Machine.global? { m with store := m.store.push ∅ } "f" = m.global? "f" := by
      rw [Machine.global?_eq, Machine.global?_eq]
      exact congrArg (·.get? "f") (Store.scope_push_of_lt m.store ∅ hscope)
    have hcall : Run.callBody n ⟨identity, selfCaller, .global, false⟩ []
        { m with callDepth := m.callDepth + 1 } = .exhausted :=
      afterwards_of_exhausted (hbody _ rfl hglobal rfl rfl)
    rw [Function.enter_succ, bind_apply_of_exhausted hcall]

theorem run_exhausted {bound : Nat} {statements : List Stmt} {found : List (NodeId × Nat)}
    (hread : (Reading.ofSource source s.nextId).result = .ok statements)
    (hresolve : resolve statements = .ok found)
    (h : runProgram bound statements
      { s.machine with depths := s.machine.depths.insertMany found } = .exhausted) :
    run bound source s = .exhausted := by
  rw [run_of_resolve bound hread hresolve]
  simp only [onMachine, h]

theorem selfCaller_exhausted (bound : Nat) {m : Machine} (henv : m.environment = .global)
    (hsize : 0 < m.store.size) (hinner : m.depths[0]? = none) (houter : m.depths[1]? = none)
    (hroom : m.callDepth + bound ≤ m.maxCallDepth) :
    runProgram bound [.function selfCaller, .expression (selfCall 1)] m = .exhausted := by
  rcases bound with _ | n
  · rfl
  have hdeclared : ∃ after, (Stmt.function selfCaller).execute (n + 1) m = .ok .normal after ∧
      after.depths = m.depths ∧ after.callDepth = m.callDepth ∧
      after.maxCallDepth = m.maxCallDepth ∧
      after.global? "f" = some (.function ⟨m.nextIdentity, selfCaller, m.environment, false⟩) := by
    refine ⟨_, rfl, rfl, rfl, rfl, (Machine.global?_eq _ _).trans ?_⟩
    exact (Store.get?_put _ _ _ _ _ (henv ▸ hsize)).trans (if_pos ⟨henv ▸ rfl, rfl⟩)
  obtain ⟨after, hfunction, hdepths, hcalls, hlimit, hf⟩ := hdeclared
  refine (bind_apply_of_ok hfunction).trans (bind_apply_of_exhausted (bind_apply_of_exhausted ?_))
  refine selfCall_exhausted n ?_ ?_ (henv ▸ hf) ?_
  · rw [hdepths, houter]
  · rw [hdepths, hinner]
  · rw [hcalls, hlimit]
    omega

/-- Without a limit the program would run forever. -/
theorem endless_selfCaller :
    ((start ⟨0⟩).withOutput .unlimited).Endless "fun f() { f(); } f();" := by
  have hread : (Reading.ofSource "fun f() { f(); } f();" 0).result =
      .ok [.function selfCaller, .expression (selfCall 1)] := by decide +kernel
  have hresolve : resolve [.function selfCaller, .expression (selfCall 1)] = .ok [] := by
    decide +kernel
  have hnone : ∀ id : NodeId, (Std.HashMap.insertMany
      ((start ⟨0⟩).withOutput .unlimited).machine.depths
      ([] : List (NodeId × Nat)))[id]? = none := by
    intro id
    simp [start, withOutput, Machine.withClock, Machine.register, Machine.empty,
      Machine.defineGlobal]
  refine fun bound => ⟨bound, fun higher hhigher => ?_⟩
  have hexhausted := selfCaller_exhausted bound
    (m := ⟨((start ⟨0⟩).withOutput .unlimited).machine.store, .empty, 0, .global, 0, higher, _,
      ((start ⟨0⟩).withOutput .unlimited).machine.hostFunctions, .unlimited⟩)
    rfl Nat.one_pos (hnone 0) (hnone 1) (by simpa using hhigher)
  exact run_exhausted hread hresolve hexhausted

end Session

end Lox
