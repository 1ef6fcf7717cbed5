import Lox.Proofs.Evaluation.CallDepth
import Lox.Proofs.Session.Likeness

/-!
# Sessions that arise

A session arises from a new one by making functions of the host known and by running texts, however
these end. Between two texts it is in the global environment with no call under way, and it is like
itself, so that the programs before it have left nothing behind that a depth could not be trusted for.
-/

namespace Lox

open Procedure

/-! ### Functions of the host -/

section Register

variable {lines : Lines} {high limit : NodeId} {w : World} {m n : Machine}

theorem Machine.alikeByDepth_empty :
    Machine.AlikeByDepth lines high limit [.plain] .empty .empty where
  store := by
    refine ⟨rfl, fun id => ?_⟩
    cases id with
    | zero => exact .empty
    | succ id => exact .empty
  size := rfl
  bound id frame hframe name hname := by
    cases id with
    | zero =>
      obtain rfl : frame = .plain := (Option.some.inj hframe).symm
      cases hname
    | succ id => cases hframe
  global := ⟨.plain, rfl, rfl⟩
  fields := ⟨rfl, fun _ => .empty⟩
  nextIdentity := rfl
  environment := rfl
  callDepth := rfl
  maxCallDepth := rfl
  depths _ _ h := ⟨rfl, h.2.2.symm⟩
  hostFunctions := rfl
  uniform := nofun
  output := rfl

theorem Machine.AlikeByDepth.register (h : Machine.AlikeByDepth lines high limit w m n)
    (name : String) (arity : Nat) {f : HostFunction} (hf : f.Uniform) :
    Machine.AlikeByDepth lines high limit w (m.register name arity f)
      (n.register name arity f) where
  store := by
    have hput := h.store.put 0 name (.native ⟨m.hostFunctions.size, name, arity⟩)
    rw [h.renames_global] at hput
    unfold Machine.register
    rw [← h.hostFunctions]
    exact hput
  size := (Store.size_put ..).trans h.size
  bound id frame hframe key hkey := by
    have hbound := h.bound id frame hframe key hkey
    show ((m.store.put 0 name _).scope id).contains key = true
    by_cases hid : id = 0
    · subst hid
      have hlt : 0 < m.store.size := h.size ▸ (List.getElem?_eq_some_iff.1 hframe).1
      rw [Store.scope_put_self _ _ _ hlt, Table.contains_insert, hbound, Bool.or_true]
    · rwa [Store.scope_put_of_ne _ _ _ hid]
  global := h.global
  fields := h.fields
  nextIdentity := h.nextIdentity
  environment := h.environment
  callDepth := h.callDepth
  maxCallDepth := h.maxCallDepth
  depths _ _ h := ⟨rfl, h.2.2.symm⟩
  hostFunctions := congrArg (Array.push · f) h.hostFunctions
  uniform g hg := by
    rcases Array.mem_push.1 hg with hg | rfl
    · exact h.uniform g hg
    · exact hf
  output := h.output

end Register

namespace Session

/-- A session that comes about from a new one by making host functions known that are `allowed` and by
running texts, each to its end or until it fails or is turned down. -/
inductive Arises (allowed : HostFunction → Prop) : Session → Prop where
  | start (now : Number) (output : Output) : Arises allowed ((start now).withOutput output)
  | register {s : Session} (name : String) (arity : Nat) {f : HostFunction}
      (before : Arises allowed s) (hf : allowed f) :
      Arises allowed { s with machine := s.machine.register name arity f }
  | run {s t : Session} {bound : Nat} {source : String} (before : Arises allowed s)
      (hrun : (Session.run bound source s).state? = some t) : Arises allowed t

/-- The session is in the global environment and no call is under way. -/
structure Idle (s : Session) : Prop where
  environment : s.machine.environment = .global
  callDepth : s.machine.callDepth = 0
  maxCallDepth : s.machine.maxCallDepth = defaultMaxCallDepth

variable {s t : Session} {bound : Nat} {source : String}

/-- However the run of a text ends, it leaves the machine restored, with the depths of the text. -/
theorem restored_of_run (hrun : (Session.run bound source s).state? = some t) :
    ∃ depths, Machine.Restored { s.machine with depths } t.machine := by
  rcases cases_of_run hrun with ⟨k, -, rfl⟩ | ⟨body, u, m, -, hu, hm, rfl⟩
  · exact ⟨s.machine.depths, .refl s.machine⟩
  · obtain ⟨found, -, hmachine⟩ := hu.machine
    rw [hmachine] at hm
    exact ⟨_, restores_runProgram bound body _ m hm⟩

theorem Idle.run (h : s.Idle) (hrun : (Session.run bound source s).state? = some t) : t.Idle := by
  obtain ⟨depths, hm⟩ := restored_of_run hrun
  exact ⟨hm.environment.trans h.environment, hm.callDepth.trans h.callDepth,
    hm.maxCallDepth.trans h.maxCallDepth⟩

theorem Arises.idle {allowed : HostFunction → Prop} (h : s.Arises allowed) : s.Idle := by
  induction h with
  | start now output => exact ⟨rfl, rfl, rfl⟩
  | register name arity _ _ ih => exact ⟨ih.environment, ih.callDepth, ih.maxCallDepth⟩
  | run _ hrun ih => exact ih.run hrun

/-! ### Scope and call depth -/

/-- Scope and call depth are restored on every exit path. However a statement or an expression ends, the
environment and the number of calls under way are as before; at every moment inside, that number is the
one at the start and one more for each call that has been entered and has not come back, and it stays
within the limit; and between two texts of a session the environment is the global one and no call is
under way. -/
theorem environment_and_callDepth_restored :
    (∀ bound m (s : Stmt) after, (s.execute bound m).state? = some after →
      after.environment = m.environment ∧ after.callDepth = m.callDepth) ∧
    (∀ bound m (e : Expr) after, (e.evaluate bound m).state? = some after →
      after.environment = m.environment ∧ after.callDepth = m.callDepth) ∧
    (∀ (c : Configuration) calls m, c.Passes calls m →
      m.callDepth = c.machine.callDepth + calls ∧
      (c.machine.maxCallDepth = 255 → c.machine.callDepth ≤ 255 → m.callDepth ≤ 255)) ∧
    ∀ allowed (s : Session), s.Arises allowed →
      s.machine.environment = .global ∧ s.machine.callDepth = 0 ∧ s.machine.maxCallDepth = 255 := by
  refine ⟨fun bound m s after h => ?_, fun bound m e after h => ?_, fun c calls m h => ?_,
    fun allowed s h => ⟨h.idle.environment, h.idle.callDepth, h.idle.maxCallDepth⟩⟩
  · have hrestored := (runsRestore bound).execute s m after h
    exact ⟨hrestored.environment, hrestored.callDepth⟩
  · have hrestored := (runsRestore bound).evaluate e m after h
    exact ⟨hrestored.environment, hrestored.callDepth⟩
  · have hcounts := h.counts
    refine ⟨hcounts.callDepth, fun hmax hle => ?_⟩
    have hwithin := hcounts.le (hmax ▸ hle)
    rwa [hcounts.maxCallDepth, hmax] at hwithin

/-- A return out of a block, the moment inside it, and a new session. -/
theorem environment_and_callDepth_restored_return :
    (∃ after, ((Stmt.block [.ret 1 none]).execute 3 .empty).state? = some after ∧
      after.environment = .global ∧ after.callDepth = 0) ∧
    (∃ after, ((Expr.unary .negate (.literal .nil) 1).evaluate 2 .empty).state? = some after ∧
      after.environment = .global ∧ after.callDepth = 0) ∧
    (∃ m, Configuration.Passes ⟨3, .empty, .statement (.block [.ret 1 none])⟩ 0 m ∧
      m.callDepth ≤ 255) ∧
    ((Session.start ⟨0⟩).withOutput .unlimited).machine.callDepth = 0 := by
  refine ⟨⟨_, rfl, environment_and_callDepth_restored.1 3 .empty (.block [.ret 1 none]) _ rfl⟩,
    ⟨_, rfl, environment_and_callDepth_restored.2.1 2 .empty (.unary .negate (.literal .nil) 1) _ rfl⟩,
    ⟨_, .inside (.block rfl) (.start _), ?_⟩,
    (environment_and_callDepth_restored.2.2.2 HostFunction.Uniform _ (.start _ _)).2.1⟩
  exact (environment_and_callDepth_restored.2.2.1 _ _ _
    (.inside (.block rfl) (.start _))).2 rfl (Nat.zero_le _)

/-! ### Sessions like themselves -/

theorem Alike.start (now : Number) (output : Output) :
    Session.Alike ((Session.start now).withOutput output)
      ((Session.start now).withOutput output) := by
  have hempty : Machine.AlikeByDepth .same 0 0 [.plain] .empty .empty := Machine.alikeByDepth_empty
  have hmachine := hempty.register "clock" 0 (Host.uniform_clock now)
  have hnone : ((Session.start now).withOutput output).Unnumbered := fun id _ => by
    simp [Session.start, Machine.withClock, withOutput, Machine.register, Machine.empty,
      Machine.defineGlobal]
  exact ⟨⟨_, { hmachine with output := rfl }⟩, rfl, hnone, hnone⟩

/-- Where the run of a text leads, however it ends. -/
theorem Alike.of_run (h : s.Alike s) (hrun : (Session.run bound source s).state? = some t) :
    t.Alike t := by
  rcases h.run bound source with ⟨⟨faults, k, hk, he⟩, -⟩ | hagree
  · rw [he] at hrun
    cases hrun
    obtain ⟨w, hmachine⟩ := h.machine
    have hleft : Unnumbered { s with nextId := k } := fun id hid => h.left id (Nat.le_trans hk hid)
    exact ⟨⟨w, hmachine.record (fun _ _ h => h) hk hk (fun _ _ => rfl) fun _ _ => rfl⟩, h.environment, hleft, hleft⟩
  · rcases hagree.cases with ⟨_, _, u, v, hx, hy, huv⟩ | ⟨_, _, u, v, hx, hy, -, -, huv⟩ | ⟨hx, -⟩
    · obtain ⟨-, rfl⟩ := Outcome.ok.inj (hx.symm.trans hy)
      rw [hx] at hrun
      cases hrun
      exact huv
    · obtain ⟨-, rfl⟩ := Outcome.error.inj (hx.symm.trans hy)
      rw [hx] at hrun
      cases hrun
      exact huv
    · rw [hx] at hrun
      cases hrun

/-- A session is like itself if the host's functions look at no declaration. -/
theorem Arises.alike (h : s.Arises HostFunction.Uniform) : s.Alike s := by
  induction h with
  | start now output => exact .start now output
  | register name arity _ hf ih =>
    obtain ⟨w, hmachine⟩ := ih.machine
    exact ⟨⟨w, hmachine.register name arity hf⟩, ih.environment, ih.left, ih.left⟩
  | run _ hrun ih => exact ih.of_run hrun

end Session

end Lox
