import Lox.Proofs.Evaluation.ForLoops
import Lox.Proofs.Evaluation.Whole
import Lox.Proofs.Session.Arising
import Lox.Proofs.Session.History
import Lox.Proofs.Session.Process
import Lox.Proofs.Syntax.Equality

/-!
# `for` loops in a session

In every session, whatever has been run before, the tree that is read for a `for` loop runs like the
loop that it stands for.
-/

namespace Lox

open Procedure

namespace Machine

variable {depths : Depths} {limit : NodeId} {names : ScopeNames} {m : Machine}

theorem whole_empty : Machine.empty.Whole (Machine.empty.depths[·]?) 0 [] where
  store := by
    have hnone : Store.Thinned (Value.Thinned (Machine.empty.depths[·]?) 0 [0]) [] .empty .empty :=
      ⟨rfl, .nil, nofun, nofun, fun _ _ => rfl⟩
    exact hnone.push .empty
  global := rfl
  fields := ⟨rfl, fun _ => .empty⟩
  nextIdentity := rfl
  callDepth := rfl
  maxCallDepth := rfl
  recorded _ := rfl
  table := rfl
  hostFunctions := rfl
  blind := nofun
  output := rfl
  environment := by
    refine ⟨rfl, ?_, fun depth i j _ hi hj => ?_⟩
    · rintro j hj
      obtain rfl := List.mem_singleton.1 hj
      exact Nat.one_pos
    · obtain rfl := Option.some.inj (hi.symm.trans hj)
      obtain rfl := List.mem_singleton.1 (List.mem_of_getElem? hi)
      rfl
  skips := .none []

theorem Whole.register (h : m.Whole depths limit names) (name : String) (arity : Nat)
    {f : HostFunction} (hf : f.Blind) : (m.register name arity f).Whole depths limit names := by
  have hput := h.toThinned.put h.global name (.native ⟨m.hostFunctions.size, name, arity⟩)
  have hsize : (m.register name arity f).store.size = m.store.size := Store.size_put ..
  rw [Whole, hsize]
  refine ⟨{ hput.toThinned with hostFunctions := rfl, blind := fun g hg => ?_ }, h.environment, h.skips⟩
  rcases Array.mem_push.1 hg with hg | rfl
  · exact h.blind g hg
  · exact hf

end Machine

namespace Session

/-- Between two texts the machine is whole. -/
structure Whole (s : Session) : Prop where
  machine : s.machine.Whole (s.machine.depths[·]?) s.nextId []
  unnumbered : s.Unnumbered

namespace Whole

variable {s t : Session} {bound : Nat} {source : String} {statements : List Stmt}

theorem start (now : Number) (output : Output) : ((start now).withOutput output).Whole where
  machine := by
    have hclock := Machine.whole_empty.register "clock" 0 (Host.blind_clock now)
    exact ⟨{ hclock.toThinned with output := rfl }, hclock.environment, hclock.skips⟩
  unnumbered := (Alike.start now output).left

/-- A prepared program finds a whole machine, in which it was placed. -/
theorem program (h : s.Whole) (bound : Nat) (hp : Prepared s source statements t) :
    Configuration.Whole (t.machine.depths[·]?) t.nextId ⟨bound, t.machine, .program statements⟩ := by
  have hd : ∀ id < s.nextId, t.machine.depths[id]? = s.machine.depths[id]? :=
    fun id hid => hp.depths_of_lt h.unnumbered hid
  have hplaced := hp.placed h.unnumbered
  have hnodes : ∀ id ∈ Stmt.nodesAll statements, id < t.nextId :=
    fun id hid => (hp.numbered.mem id hid).2
  have hle := hp.numbered.le
  obtain ⟨found, -, hmachine⟩ := hp.machine
  obtain ⟨m, k⟩ := t
  subst hmachine
  have hrecorded := h.machine.toThinned.record hle hd
  exact ⟨⟨hrecorded, h.machine.environment, .none []⟩, hplaced, hnodes⟩

/-- Sessions stay whole, however the run of a text ends. -/
theorem run (h : s.Whole) (hrun : (Session.run bound source s).state? = some t) : t.Whole := by
  refine ⟨?_, (kept_of_run h.unnumbered hrun).2.1⟩
  rcases cases_of_run hrun with ⟨k, hk, rfl⟩ | ⟨statements, u, m, -, hp, hm, rfl⟩
  · have hrecorded := h.machine.toThinned.record hk fun _ _ => rfl
    exact ⟨hrecorded, h.machine.environment, .none []⟩
  · have hprogram := h.program bound hp
    have hruns := Machine.ThinnedIn.runProgram bound hprogram.1 hprogram.2 nofun
    have hwhole := hprogram.1.of_state hruns hm
    have hrecorded : (m.depths[·]?) = (u.machine.depths[·]?) := funext hwhole.recorded
    show m.Whole (m.depths[·]?) u.nextId []
    rw [hrecorded]
    exact hwhole

end Whole

variable {s : Session} {bound : Nat} {source : String}

/-- A session is whole if the host's functions do not look into functions. -/
theorem Arises.whole (h : s.Arises HostFunction.Blind) : s.Whole := by
  induction h with
  | start now output => exact .start now output
  | register name arity _ hf ih => exact ⟨ih.machine.register name arity hf, ih.unnumbered⟩
  | run _ hrun ih => exact ih.run hrun

theorem whole_of_does (hs : s.Arises HostFunction.Blind) {c : Configuration}
    (hc : s.Does bound source c) : ∃ depths limit, c.Whole depths limit := by
  obtain ⟨statements, found, hread, hresolve, hreach⟩ := hc
  exact ⟨_, _, (hs.whole.program bound (prepared_of_resolve hread hresolve)).reaches hreach⟩

end Session

/-- Two machines in which a run from `m` ends, of which the second has only the scopes `kept`. In both
the environment is that of `m` and the same has been printed, and instances have the same fields with the
same values. All scopes that were there before have the same variables with the same values. So have
those that were added, except for empty ones that the second machine does not have. -/
structure Machine.EndAlike (depths : Depths) (limit : NodeId) (kept : List ScopeId)
    (m after last : Machine) : Prop extends
    m.StayThinned depths limit (List.range m.store.size) m kept after last where
  scopes : ∀ scope < m.store.size,
    (after.store.scope scope).Alike .refl (Value.Thinned depths limit kept) (last.store.scope scope)

theorem Machine.StayThinned.endAlike {depths : Depths} {limit : NodeId} {kept : List ScopeId}
    {m after last : Machine}
    (h : m.StayThinned depths limit (List.range m.store.size) m kept after last) :
    m.EndAlike depths limit kept after last := by
  refine ⟨h, fun scope hscope => h.store.scope scope scope ?_⟩
  have hlt : scope < (List.range m.store.size).length := List.length_range.symm ▸ hscope
  rw [List.prefix_iff_getElem?.1 h.le scope hlt, List.getElem_range]

namespace Session

open Grammar (Clause)

variable {s : Session} {bound : Nat} {source : String}

/-- The rewriting of `for` loops keeps their meaning. Wherever a run in a session comes to a `for` loop,
with any of its clauses left out, in whatever function and whatever other loop, running its tree of
blocks and a `while` loop goes like running the loop as it is meant: both do not end, both fail with the
same failure, or both end normally or return the same value. Afterwards the same has been printed and all
variables and fields have the same values. The environment is that of before, whose scopes were all
there before, so that nothing that the loop declares is visible any more. The evaluation of the tree with
a bound comes to this as soon as the bound is large enough. The body of a loop has to be a statement that
declares nothing, as every statement of the grammar is. -/
theorem forLoop_runs_as_meant (hs : s.Arises HostFunction.Blind) {n : Nat} {m : Machine}
    {initial : Option Stmt} {condition increment : Option Expr} {body : Stmt}
    (hdoes : s.Does bound source ⟨n, m, .statement (.forLoop initial condition increment body)⟩)
    (hbody : body.declared? = none) :
    (∃ depths limit, Agree
      (fun e f after last => e = f ∧ ∃ kept, m.EndAlike depths limit kept after last)
      (Stmt.forLoop initial condition increment body).run
      (Run.forLoop initial condition increment body) m m
      fun c d after last => ∃ kept, m.EndAlike depths limit kept after last ∧
        c.Thinned depths limit kept d) ∧
    (∀ scope ∈ m.environment.chain, scope < m.store.size) ∧
    (∃ k, ∀ larger, k ≤ larger →
      (Stmt.forLoop initial condition increment body).execute larger m =
        (Stmt.forLoop initial condition increment body).run m) ∧
    ∀ isOpen ts (s : Stmt), Clause (.statement isOpen) ts s → s.declared? = none := by
  obtain ⟨depths, limit, names, hm, hplaced⟩ := whole_of_does hs hdoes
  refine ⟨⟨depths, limit, ?_⟩, fun scope hscope => ?_, (Stmt.rising _).exists_eq_unbounded m,
    fun _ _ _ h => h.declared?_eq_none⟩
  · refine (Machine.ThinnedIn.forLoop hm hplaced hbody).imp ?_ ?_
    · rintro c d after last ⟨kept, hstay, hcd⟩
      exact ⟨kept, hstay.endAlike, hcd⟩
    · rintro e f after last ⟨he, kept, hstay⟩
      exact ⟨he, kept, hstay.endAlike⟩
  · have hwithin := hm.environment.within scope hscope
    rwa [List.length_range] at hwithin

/-- A loop with all its clauses, in a new session. -/
theorem forLoop_runs_as_meant_start :
    ∃ m initial condition increment body,
      ((start ⟨0⟩).withOutput .unlimited).Does 9 "for (var i = nil; i == nil; i = true) print i;"
        ⟨9, m, .statement (.forLoop (some initial) (some condition) (some increment) body)⟩ ∧
      body.declared? = none ∧
      ∃ depths limit, Agree
        (fun e f after last => e = f ∧ ∃ kept, m.EndAlike depths limit kept after last)
        (Stmt.forLoop (some initial) (some condition) (some increment) body).run
        (Run.forLoop (some initial) (some condition) (some increment) body) m m
        fun c d after last => ∃ kept, m.EndAlike depths limit kept after last ∧
          c.Thinned depths limit kept d := by
  let initial : Stmt := .var ⟨"i", 1⟩ (some (.literal .nil))
  let condition : Expr := .binary (.reference ⟨0, ⟨"i", 1⟩⟩) .equal (.literal .nil) 1
  let increment : Expr := .assign ⟨2, ⟨"i", 1⟩⟩ (.literal (.bool true))
  let body : Stmt := .print (.reference ⟨3, ⟨"i", 1⟩⟩)
  have hread : (Reading.ofSource "for (var i = nil; i == nil; i = true) print i;" 0).result =
      .ok [.forLoop (some initial) (some condition) (some increment) body] := by decide +kernel
  have hresolve : resolve [.forLoop (some initial) (some condition) (some increment) body] =
      .ok [(0, 0), (3, 1), (2, 1)] := by decide +kernel
  have hdoes : ((start ⟨0⟩).withOutput .unlimited).Does 9 _ _ :=
    ⟨_, _, hread, hresolve, .single .firstOfProgram⟩
  exact ⟨_, initial, condition, increment, body, hdoes, rfl,
    (forLoop_runs_as_meant (.start ⟨0⟩ .unlimited) hdoes rfl).1⟩

end Session

end Lox
