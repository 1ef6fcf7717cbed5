import Lox.Host
import Lox.Proofs.Evaluation.Undefined
import Lox.Proofs.Session.Preparation

/-!
# Histories of a session

Every session that comes about from a new one by running texts is sound, so that a reference never
misses the scope that resolution found for it, however the texts before have ended.
-/

namespace Lox

open Procedure

/-! ### Other depths -/

section

variable {depths others : Depths} {limit high : NodeId} {s : Store Value}

theorem FunctionDef.Coded.congr {names : ScopeNames} {declaration : FunctionDef}
    (h : declaration.Coded depths limit names) (hd : ∀ id < limit, depths id = others id)
    (hle : limit ≤ high) : declaration.Coded others high names where
  placed := Stmt.Placed.function_congr declaration (fun id hid => hd id (h.nodes id hid)) h.placed
  selfAssignFree := h.selfAssignFree
  nodes id hid := Nat.lt_of_lt_of_le (h.nodes id hid) hle

/-- Depths may be recorded for new nodes: no function has them. -/
theorem Store.Sound.congr {values : Store Value} (h : values.Sound depths limit s)
    (hd : ∀ id < limit, depths id = others id) (hle : limit ≤ high) :
    values.Sound others high s := by
  intro scope name value hv
  refine Value.Every.mono (fun f hf => ?_) (fun f hf => ?_) (h scope name value hv)
  · obtain ⟨names, hholds, hcoded, hthis⟩ := hf
    exact ⟨names, hholds, hcoded.congr hd hle, hthis⟩
  · obtain ⟨names, hholds, hcoded⟩ := hf
    exact ⟨names, hholds, hcoded.congr hd hle⟩

end

theorem Run.Keeps.of_state {α : Type} {depths : Depths} {limit : NodeId} {m after : Machine} {x : Run α}
    {P : α → Store Value → Prop} (h : Keeps depths limit m x P) (hafter : (x m).state? = some after) :
    m.Follows depths limit after := by
  unfold Keeps at h
  cases ho : x m with
  | ok a later =>
    rw [ho] at h hafter
    cases hafter
    exact h.1
  | error e later =>
    rw [ho] at h hafter
    cases hafter
    exact h
  | exhausted =>
    rw [ho] at hafter
    cases hafter

theorem keeps_runProgram {depths : Depths} {limit : NodeId} {m : Machine} (bound : Nat)
    (statements : List Stmt) (h : m.Ready depths limit [])
    (hs : Stmt.CodedAll depths limit [] statements) :
    Run.Keeps depths limit m (runProgram bound statements) fun _ _ => True := by
  induction statements generalizing m with
  | nil => exact .pure h.sound trivial
  | cons s rest ih =>
    obtain ⟨hfirst, hrest⟩ := hs.cons
    rw [ScopeNames.after_nil] at hrest
    refine Run.Keeps.bind ((keepsSound depths limit bound).execute s h hfirst) fun _ after hm _ => ?_
    exact ih (h.follows hm) hrest

namespace Session

/-- No local variable of the program that this text is read as is assigned to in its own initial
value. -/
def SelfAssignFree (s : Session) (source : String) : Prop :=
  ∀ statements, (Reading.ofSource source s.nextId).result = .ok statements →
    Stmt.SelfAssignFreeAll false statements

instance decidableSelfAssignFree (s : Session) (source : String) :
    Decidable (s.SelfAssignFree source) :=
  match h : (Reading.ofSource source s.nextId).result with
  | .error _ => .isTrue fun _ hs => nomatch h.symm.trans hs
  | .ok statements => decidable_of_iff (Stmt.SelfAssignFreeAll false statements)
      ⟨fun hf _ hs => Except.ok.inj (h.symm.trans hs) ▸ hf, fun hf => hf statements h⟩

/-- A session that comes about from a new one by running texts, each to its end or until it fails or
is turned down. -/
inductive Reached : Session → Prop where
  | start (now : Number) (output : Output) : Reached ((start now).withOutput output)
  | run {s t : Session} {bound : Nat} {source : String} (before : Reached s)
      (hfree : s.SelfAssignFree source) (hrun : (Session.run bound source s).state? = some t) : Reached t

/-- Running the text comes to this task. -/
def Does (s : Session) (bound : Nat) (source : String) (c : Configuration) : Prop :=
  ∃ statements found, (Reading.ofSource source s.nextId).result = .ok statements ∧
    resolve statements = .ok found ∧
    Configuration.Reaches ⟨bound, { s.machine with depths := s.machine.depths.insertMany found },
      .program statements⟩ c

/-- A text that fails was accepted, and it comes to a task that raises the failure. -/
theorem exists_origin {s t : Session} {bound : Nat} {source : String} {failure : Failure}
    (h : Session.run bound source s = .error (.failed failure) t) :
    ∃ c, s.Does bound source c ∧ c.Raises failure := by
  rcases run_cases bound source s with ⟨faults, k, -, he⟩ | ⟨statements, u, hread, hp, he⟩
  · rw [he] at h
    cases h
  · obtain ⟨found, hresolve, hmachine⟩ := hp.machine
    rw [he] at h
    obtain ⟨raised, hraised, hf⟩ := failed_of_onMachine _ _ h
    cases hraised
    obtain ⟨c, hreach, hraises⟩ := Configuration.exists_origin (c := ⟨bound, u.machine,
      .program statements⟩) hf
    exact ⟨c, ⟨statements, found, hread, hresolve, hmachine ▸ hreach⟩, hraises⟩

/-- Between two texts everything in the machine is sound and the environment is the global one. -/
structure Sound (s : Session) : Prop where
  machine : s.machine.Sound (s.machine.depths[·]?) s.nextId
  environment : s.machine.environment = .global
  unnumbered : s.Unnumbered

namespace Sound

variable {s t : Session} {source : String} {statements : List Stmt}

theorem start (now : Number) (output : Output) : ((start now).withOutput output).Sound where
  machine := by
    have hclock : ∀ name value, (Table.empty.insert "clock"
        (.native ⟨0, "clock", 0⟩) : Table Value).get? name = some value →
        value = .native ⟨0, "clock", 0⟩ := by
      intro name value h
      rw [Table.get?_insert] at h
      split at h
      · exact (Option.some.inj h).symm
      · cases h
    refine ⟨fun _ => rfl, fun scope name value hv => ?_, nofun, Nat.one_pos, ?_⟩
    · have hlt : scope < 1 := Store.Extends.get?_lt hv
      obtain rfl : scope = 0 := Nat.lt_one_iff.1 hlt
      rw [hclock name value hv]
      trivial
    · intro f hf
      have hf : f = Host.clock now := by simpa [Session.start, Machine.withClock,
        withOutput, Machine.register, Machine.empty, Machine.defineGlobal] using hf
      rw [hf]
      intro P Q arguments value _ hvalue
      cases hvalue
      trivial
  environment := rfl
  unnumbered id _ := by
    simp [Session.start, Machine.withClock, withOutput, Machine.register, Machine.empty,
      Machine.defineGlobal]

/-- A prepared program finds a machine that is ready for it. -/
theorem ready (h : s.Sound) (hp : Prepared s source statements t) :
    t.machine.Ready (t.machine.depths[·]?) t.nextId [] := by
  obtain ⟨found, -, hmachine⟩ := hp.machine
  have hd : ∀ id < s.nextId, s.machine.depths[id]? = t.machine.depths[id]? :=
    fun id hid => (hp.depths_of_lt h.unnumbered hid).symm
  have hle := hp.numbered.le
  obtain ⟨m, k⟩ := t
  subst hmachine
  refine ⟨⟨fun _ => rfl, h.machine.store.congr hd hle, h.machine.fields.congr hd hle,
    h.machine.global, h.machine.hostFunctions⟩, ?_⟩
  show s.machine.environment.Holds s.machine.store []
  rw [h.environment]
  exact .global h.machine.global

theorem coded (h : s.Sound) (hp : Prepared s source statements t)
    (hfree : Stmt.SelfAssignFreeAll false statements) :
    Stmt.CodedAll (t.machine.depths[·]?) t.nextId [] statements :=
  ⟨hp.placed h.unnumbered, hfree, fun id hid => (hp.numbered.mem id hid).2⟩

/-- What follows a sound machine between two texts is sound. -/
theorem of_follows {m : Machine} {k : NodeId} (h : s.machine.Follows (s.machine.depths[·]?) k m)
    (henv : s.machine.environment = .global) (hs : s.Unnumbered) (hk : s.nextId = k) :
    Session.Sound ⟨m, k⟩ := by
  have hrecorded := h.sound.recorded
  refine ⟨⟨fun _ => rfl, ?_, ?_, h.sound.global, h.sound.hostFunctions⟩, h.environment.trans henv,
    fun id hid => (hrecorded id).trans (hs id (hk ▸ hid))⟩
  · exact h.sound.store.congr (fun id _ => (hrecorded id).symm) (Nat.le_refl k)
  · exact h.sound.fields.congr (fun id _ => (hrecorded id).symm) (Nat.le_refl k)

/-- Sessions stay sound, however the run of a text ends. -/
theorem run {bound : Nat} (h : s.Sound) (hfree : s.SelfAssignFree source)
    (hrun : (Session.run bound source s).state? = some t) : t.Sound := by
  rcases cases_of_run hrun with ⟨k, hk, rfl⟩ | ⟨statements, u, m, hread, hp, hm, rfl⟩
  · exact ⟨⟨fun _ => rfl, h.machine.store.congr (fun _ _ => rfl) hk,
      h.machine.fields.congr (fun _ _ => rfl) hk, h.machine.global, h.machine.hostFunctions⟩,
      h.environment, fun id hid => h.unnumbered id (Nat.le_trans hk hid)⟩
  · have hready := h.ready hp
    have henv : u.machine.environment = .global := hready.environment.eq_global
    have hkeeps := keeps_runProgram bound statements hready (h.coded hp (hfree _ hread))
    exact of_follows (hkeeps.of_state hm) henv (hp.unnumbered h.unnumbered) rfl

end Sound

theorem Reached.sound {s : Session} (h : s.Reached) : s.Sound := by
  induction h with
  | start now output => exact .start now output
  | run _ hfree hrun ih => exact ih.run hfree hrun

/-- Resolved references never miss. In every session that running texts leads to, and for every task
that running one more text comes to: its references hit; `super` fails only for want of the method;
and if the run ends with an undefined variable, it came to a reference of this name that is not
resolved and not among the global variables. -/
theorem references_hit {s : Session} (hs : s.Reached) {source : String}
    (hfree : s.SelfAssignFree source) (bound : Nat) :
    (∀ c, s.Does bound source c → c.Hits) ∧
    (∀ n m id line method, s.Does bound source ⟨n, m, .expression (.super id line method)⟩ →
      ∀ failure, ((Expr.super id line method).evaluate n m).failure? = some failure →
        failure = ⟨.undefinedProperty method.text, method.line⟩) ∧
    ∀ name line t, Session.run bound source s =
        .error (.failed ⟨.undefinedVariable name, line⟩) t →
      ∃ c, s.Does bound source c ∧ c.Misses name line := by
  have hsound : ∀ c, s.Does bound source c →
      ∃ depths limit, c.Sound depths limit := by
    rintro c ⟨statements, found, hread, hresolve, hreach⟩
    have hp := prepared_of_resolve hread hresolve
    have hprogram : Configuration.Sound _ _ ⟨bound, _, .program statements⟩ :=
      ⟨hs.sound.ready hp, hs.sound.coded hp (hfree _ hread)⟩
    exact ⟨_, _, hprogram.reaches hreach⟩
  refine ⟨fun c hc => ?_, fun n m id line method he failure hf => ?_, ?_⟩
  · obtain ⟨depths, limit, hsound⟩ := hsound c hc
    exact hsound.hits
  · obtain ⟨depths, limit, hc⟩ := hsound _ he
    cases n with
    | zero => cases hf
    | succ n =>
      obtain ⟨c, object, hsuper⟩ := Run.superMethod_of_hits hc.hits
      rw [Expr.evaluate, hsuper] at hf
      cases hfound : c.findMethod? method.text with
      | none =>
        rw [hfound] at hf
        exact (Option.some.inj hf).symm
      | some f =>
        rw [hfound] at hf
        cases hf
  · intro name line t hrun
    rcases run_cases bound source s with ⟨faults, k, -, he⟩ | ⟨statements, u, hread, hp, he⟩
    · rw [he] at hrun
      cases hrun
    · obtain ⟨found, hresolve, hmachine⟩ := hp.machine
      have hc : Configuration.Sound _ _ ⟨bound, u.machine, .program statements⟩ :=
        ⟨hs.sound.ready hp, hs.sound.coded hp (hfree _ hread)⟩
      have hf : (runProgram bound statements u.machine).failure? =
          some ⟨.undefinedVariable name, line⟩ := by
        rw [he, onMachine] at hrun
        cases ho : runProgram bound statements u.machine with
        | error e m =>
          rw [ho] at hrun
          cases hrun
          rfl
        | ok a m =>
          rw [ho] at hrun
          cases hrun
        | exhausted =>
          rw [ho] at hrun
          cases hrun
      obtain ⟨d, hreach, hmiss⟩ := hc.exists_misses_program hf
      exact ⟨d, ⟨statements, found, hread, hresolve, hmachine ▸ hreach⟩, hmiss⟩

theorem references_hit_block :
    ((start ⟨0⟩).withOutput .unlimited).Reached ∧
    ((start ⟨0⟩).withOutput .unlimited).SelfAssignFree "{ var a = 1; { a = a + 1; print a; } }" ∧
    ∀ bound c, ((start ⟨0⟩).withOutput .unlimited).Does bound
      "{ var a = 1; { a = a + 1; print a; } }" c → c.Hits :=
  ⟨.start _ _, by decide +kernel,
    fun bound => (references_hit (.start _ _) (by decide +kernel) bound).1⟩

end Session

end Lox
