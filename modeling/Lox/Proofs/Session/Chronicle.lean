import Lox.Proofs.Evaluation.RootedRuns
import Lox.Proofs.Session.Process
import Lox.Proofs.Session.Regimes

/-!
# The past of a session

A session has run some programs. Their events, one program after the other, are all that has happened in
it: they follow one another, and at each of them all values have roots among the tasks that have begun.

## Implementation notes

A program that was cut short has no session after it, so the machine after each program of the past is
the one that it has left behind.
-/

namespace Lox

open Procedure

/-- The events of some programs, one program after the other. -/
def Configuration.events (programs : List Configuration) : List Event :=
  programs.flatMap Configuration.trace

/-- The task was begun in one of these programs. -/
def Configuration.Begins (programs : List Configuration) (c : Configuration) : Prop :=
  ∃ program ∈ programs, program.Reaches c

theorem Configuration.Begins.of_mem {programs : List Configuration} {program : Configuration}
    (h : program ∈ programs) : Begins programs program := ⟨program, h, .refl⟩

namespace Session

/-- The program that running a text comes to, with the machine that it finds, unless the text is turned
down. -/
def program? (s : Session) (bound : Nat) (source : String) : Option Configuration :=
  match (Reading.ofSource source s.nextId).result with
  | .error _ => none
  | .ok statements =>
    match resolve statements with
    | .error _ => none
    | .ok found =>
      some ⟨bound, { s.machine with depths := s.machine.depths.insertMany found },
        .program statements⟩

/-- A session that arises as in `Arises`, with the programs that it has run. -/
inductive Lives (allowed : HostFunction → Prop) : List Configuration → Session → Prop where
  | start (now : Number) (output : Output) : Lives allowed [] ((start now).withOutput output)
  | register {past : List Configuration} {s : Session} (name : String) (arity : Nat)
      {f : HostFunction} (before : Lives allowed past s) (hf : allowed f) :
      Lives allowed past { s with machine := s.machine.register name arity f }
  | run {past : List Configuration} {s t : Session} {bound : Nat} {source : String}
      (before : Lives allowed past s) (hrun : (Session.run bound source s).state? = some t) :
      Lives allowed (past ++ (s.program? bound source).toList) t

variable {allowed : HostFunction → Prop} {past : List Configuration} {s t : Session} {bound : Nat}
  {source : String} {c program : Configuration}

/-- Every session that arises has a past. -/
theorem arises_iff_exists_lives : s.Arises allowed ↔ ∃ past, Lives allowed past s := by
  constructor
  · intro h
    induction h with
    | start now output => exact ⟨[], .start now output⟩
    | register name arity _ hf ih =>
      obtain ⟨past, ih⟩ := ih
      exact ⟨past, .register name arity ih hf⟩
    | run _ hrun ih =>
      obtain ⟨past, ih⟩ := ih
      exact ⟨_, .run ih hrun⟩
  · rintro ⟨past, h⟩
    induction h with
    | start now output => exact .start now output
    | register name arity _ hf ih => exact .register name arity ih hf
    | run _ hrun ih => exact .run ih hrun

/-- Running a text comes to the tasks of its program. -/
theorem does_iff_exists_program :
    s.Does bound source c ↔ ∃ program ∈ s.program? bound source, program.Reaches c := by
  constructor
  · rintro ⟨statements, found, hread, hresolve, hreach⟩
    refine ⟨_, ?_, hreach⟩
    simp [program?, hread, hresolve]
  · rintro ⟨program, hprogram, hreach⟩
    unfold program? at hprogram
    split at hprogram
    · cases hprogram
    · next statements hread =>
      split at hprogram
      · cases hprogram
      · next found hresolve =>
        cases hprogram
        exact ⟨statements, found, hread, hresolve, hreach⟩

theorem program?_eq_some {statements : List Stmt} {found : List (NodeId × Nat)}
    (hread : (Reading.ofSource source s.nextId).result = .ok statements)
    (hresolve : resolve statements = .ok found) :
    s.program? bound source =
      some ⟨bound, { s.machine with depths := s.machine.depths.insertMany found },
        .program statements⟩ := by
  rw [program?, hread]
  simp only [hresolve]

/-- A program that was accepted is prepared. -/
theorem prepared_of_program? (h : s.program? bound source = some program) :
    ∃ statements u, Prepared s source statements u ∧
      program = ⟨bound, u.machine, .program statements⟩ := by
  unfold program? at h
  split at h
  · cases h
  · next statements hread =>
    split at h
    · cases h
    · next found hresolve =>
      cases h
      exact ⟨statements, _, prepared_of_resolve hread hresolve, rfl⟩

/-- The machine after the run of a text is that of before or the one that its program leaves. -/
theorem machine_of_run (hrun : (Session.run bound source s).state? = some t) :
    (s.program? bound source = none ∧ t.machine = s.machine) ∨
      ∃ program, s.program? bound source = some program ∧ program.after? = some t.machine := by
  unfold program?
  cases hread : (Reading.ofSource source s.nextId).result with
  | error faults =>
    rw [run_of_unread bound hread] at hrun
    cases hrun
    exact .inl ⟨rfl, rfl⟩
  | ok statements =>
    cases hresolve : resolve statements with
    | error faults =>
      rw [run_of_unresolved bound hread hresolve] at hrun
      cases hrun
      exact .inl ⟨by simp only [hresolve], rfl⟩
    | ok found =>
      refine .inr ⟨⟨bound, { s.machine with depths := s.machine.depths.insertMany found },
        .program statements⟩, by simp only [hresolve], ?_⟩
      rw [run_of_resolve bound hread hresolve, state?_onMachine] at hrun
      obtain ⟨m, hm, rfl⟩ := Option.map_eq_some_iff.1 hrun
      exact hm

end Session

theorem HostFunction.Inert.passive {f : HostFunction} (h : f.Inert) : f.Passive := by
  intro P Q arguments value harguments hvalue
  rcases h arguments value hvalue with hplain | hmem
  · cases value with
    | function _ | ofClass _ | ofInstance _ => exact hplain.elim
    | _ => trivial
  · exact harguments value hmem

namespace Session.Lives

variable {past : List Configuration} {s t : Session} {bound : Nat} {source : String}
  {c program : Configuration}

theorem passive (h : Lives HostFunction.Inert past s) : s.Arises HostFunction.Passive := by
  induction h with
  | start now output => exact .start now output
  | register name arity _ hf ih => exact .register name arity ih hf.passive
  | run _ hrun ih => exact .run ih hrun

theorem unnumbered (h : Lives HostFunction.Inert past s) : s.Unnumbered := by
  induction h with
  | start now output => exact (Alike.start now output).left
  | register name arity _ _ ih => exact ih
  | run _ hrun ih => exact (kept_of_run ih hrun).2.1

/-- An accepted program is under the regime of what can be read. -/
theorem under_program (h : Lives HostFunction.Inert past s)
    (hp : s.program? bound source = some program) : program.Under .ofReading :=
  under_of_does h.passive.under_ofReading (readsUnder_ofReading s source)
    (does_iff_exists_program.2 ⟨program, hp, .refl⟩)

theorem under_past (h : Lives HostFunction.Inert past s) :
    ∀ program ∈ past, program.Under .ofReading := by
  induction h with
  | start now output => exact nofun
  | register name arity _ _ ih => exact ih
  | @run past s t bound source before _ ih =>
    rw [List.forall_mem_append]
    refine ⟨ih, fun program hp => before.under_program (Option.mem_toList.1 hp)⟩

/-- What has begun in a session, and in the run of one more text. -/
theorem begun (h : Lives HostFunction.Inert past s)
    (hp : s.program? bound source = some program) :
    Begun (Configuration.Begins (past ++ [program])) := by
  constructor
  · rintro c ⟨begun, hmem, hreach⟩
    rcases List.mem_append.1 hmem with hmem | hmem
    · exact (h.under_past begun hmem).reaches hreach
    · obtain rfl := List.mem_singleton.1 hmem
      exact (h.under_program hp).reaches hreach
  · rintro c d ⟨program, hmem, hreach⟩ hstarts
    exact ⟨program, hmem, hreach.tail hstarts⟩

/-- The machine has grown when a program begins, by the depths that are recorded for the program. -/
theorem moves_program (h : Lives HostFunction.Inert past s)
    (hp : s.program? bound source = some program) : s.machine.Moves program.machine := by
  obtain ⟨statements, ⟨m, k⟩, hprepared, rfl⟩ := prepared_of_program? hp
  have hd : ∀ id, id < s.nextId → m.depths[id]? = s.machine.depths[id]? := fun id =>
    hprepared.depths_of_lt h.unnumbered
  obtain ⟨found, -, hmachine⟩ := hprepared.machine
  subst hmachine
  refine ⟨⟨.refl _, Nat.le_refl _, Nat.le_refl _, fun id depth hdepth => ?_⟩, fun _ _ => rfl⟩
  refine (hd id (Nat.lt_of_not_le fun hle => ?_)).trans hdepth
  exact nomatch hdepth.symm.trans (h.unnumbered id hle)

/-! ### Values with roots -/

section Roots

variable {done : Configuration → Prop}

theorem grows_register (m : Machine) (name : String) (arity : Nat) (f : HostFunction) :
    m.Grows (m.register name arity f) :=
  ⟨.put_global m.store name _, Nat.le_refl _, Nat.le_refl _, fun _ _ h => h⟩

theorem rooted_register {m : Machine} (h : m.Rooted done) (name : String) (arity : Nat)
    {f : HostFunction} (hf : f.Inert) : (m.register name arity f).Rooted done := by
  have hg := grows_register m name arity f
  refine ⟨Nat.lt_of_lt_of_le h.global hg.store.size, fun scope key value hv => ?_,
    fun object key value hv => (h.fields object key value hv).mono hg, fun g hg' => ?_⟩
  · rcases Store.get?_of_put hv with rfl | hold
    · trivial
    · exact (h.store scope key value hold).mono hg
  · rcases Array.mem_push.1 hg' with hg' | rfl
    · exact h.hostFunctions g hg'
    · exact hf

theorem rooted_empty : Machine.empty.Rooted done := by
  refine ⟨Nat.one_pos, fun scope name value hv => ?_, nofun, ?_⟩
  · have hlt : scope < 1 := Store.Extends.get?_lt hv
    obtain rfl : scope = 0 := Nat.lt_one_iff.1 hlt
    cases hv
  · intro f hf
    exact absurd hf (Array.not_mem_empty f)

theorem moves_start (now : Number) (output : Output) :
    Machine.empty.Moves ((Session.start now).withOutput output).machine := by
  have hmoves : Machine.empty.Moves (Machine.withClock now) :=
    ⟨grows_register .empty "clock" 0 _, fun _ _ => rfl⟩
  exact hmoves.trans (.of_eq rfl rfl rfl rfl)

theorem rooted_start (now : Number) (output : Output) :
    ((Session.start now).withOutput output).machine.Rooted done := by
  have hinert : HostFunction.Inert (Host.clock now) := by
    rintro arguments value ⟨⟩
    exact .inl trivial
  have hempty : Machine.empty.Rooted done := rooted_empty
  exact (rooted_register hempty "clock" 0 hinert).of_eq rfl rfl rfl rfl rfl

/-- An accepted program has roots among the tasks that have begun. -/
theorem rooted_program (h : Lives HostFunction.Inert past s) (hm : s.machine.Rooted done)
    (hp : s.program? bound source = some program) (hdone : done program) :
    program.Rooted done := by
  have hmoves := h.moves_program hp
  obtain ⟨statements, ⟨m, k⟩, hprepared, rfl⟩ := prepared_of_program? hp
  have hplaced := hprepared.placed h.unnumbered
  obtain ⟨found, -, hmachine⟩ := hprepared.machine
  subst hmachine
  refine ⟨hdone, ?_, nofun, ?_, Stmt.Placed.recordedAll statements hplaced .nil⟩
  · exact hm.grow hmoves.grows (fun _ _ _ hv => .inr hv) (fun _ _ _ hv => .inr hv) rfl
  · show ∀ p ∈ Stmt.supersAll statements, _
    rw [Stmt.Placed.supersAll_eq_nil hplaced]
    exact nofun

/-- If all that the session has begun counts as done, its values have roots in it. -/
theorem rooted (h : Lives HostFunction.Inert past s) (H : Begun done)
    (hdone : ∀ program ∈ past, done program) :
    s.machine.Rooted done ∧ ∀ program ∈ past, program.Rooted done := by
  induction h with
  | start now output => exact ⟨rooted_start now output, nofun⟩
  | register name arity _ hf ih =>
    obtain ⟨hm, hpast⟩ := ih hdone
    exact ⟨rooted_register hm name arity hf, hpast⟩
  | @run past s t bound source before hrun ih =>
    rw [List.forall_mem_append] at hdone ⊢
    obtain ⟨hm, hpast⟩ := ih hdone.1
    rcases machine_of_run hrun with ⟨hnone, hmachine⟩ | ⟨program, hp, hafter⟩
    · rw [hnone, hmachine]
      exact ⟨hm, hpast, nofun⟩
    · have hprogram := before.rooted_program hm hp
        (hdone.2 program (Option.mem_toList.2 hp))
      refine ⟨hprogram.after H hafter, hpast, fun c hc => ?_⟩
      obtain rfl := Option.some.inj (hp.symm.trans (Option.mem_toList.1 hc))
      exact hprogram

end Roots

/-! ### Events in a row -/

/-- All events of a session follow one another, and its machine follows the last of them. -/
theorem path (h : Lives HostFunction.Inert past s) :
    Event.Path .empty (Configuration.events past) ∧
      (Event.last .empty (Configuration.events past)).Moves s.machine := by
  induction h with
  | start now output => exact ⟨trivial, moves_start now output⟩
  | @register past s name arity f _ _ ih =>
    exact ⟨ih.1, ih.2.trans ⟨grows_register s.machine name arity f, fun _ _ => rfl⟩⟩
  | @run past s t bound source before hrun ih =>
    rcases machine_of_run hrun with ⟨hnone, hmachine⟩ | ⟨program, hp, hafter⟩
    · rw [hnone, hmachine, Option.toList_none, List.append_nil]
      exact ih
    · have htraced := (before.under_program hp).traced
      obtain ⟨hpath, hlast⟩ := htraced.of_moves (ih.2.trans (before.moves_program hp))
      rw [hp, Configuration.events, List.flatMap_append, Option.toList_some, List.flatMap_singleton,
        Event.Path.append_iff, Event.last_append]
      refine ⟨⟨ih.1, hpath⟩, ?_⟩
      have hend : Event.last (Event.last .empty (Configuration.events past)) program.trace =
          t.machine := hlast.trans (htraced.last _ hafter)
      exact hend ▸ .refl _

/-- So do those of one more program, as far as it runs. -/
theorem path_program (h : Lives HostFunction.Inert past s)
    (hp : s.program? bound source = some program) :
    Event.Path .empty (Configuration.events (past ++ [program])) := by
  have htraced := (h.under_program hp).traced
  obtain ⟨hpath, -⟩ := htraced.of_moves (h.path.2.trans (h.moves_program hp))
  rw [Configuration.events, List.flatMap_append, List.flatMap_singleton, Event.Path.append_iff]
  exact ⟨h.path.1, hpath⟩

end Session.Lives

end Lox
