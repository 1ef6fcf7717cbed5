import Lox.Proofs.Evaluation.Abiding
import Lox.Proofs.Session.Arising
import Lox.Proofs.Session.History

/-!
# Sessions under a regime

A session stays under a regime as long as the texts that it runs and the functions of the host that
are made known to it are under the regime.
-/

namespace Lox

open Procedure

variable {r : Regime}

namespace Machine

theorem under_empty (r : Regime) : Machine.empty.Under r := by
  refine ⟨Nat.one_pos, fun scope name value hv => ?_, nofun, ?_⟩
  · have hlt : scope < 1 := Store.Extends.get?_lt hv
    obtain rfl : scope = 0 := Nat.lt_one_iff.1 hlt
    cases hv
  · intro f hf
    exact absurd hf (Array.not_mem_empty f)

/-- A function of the host may have any name, since it is global. -/
theorem Under.register {m : Machine} (h : m.Under r) (name : String) (arity : Nat)
    {f : HostFunction} (hf : f.Under r) : (m.register name arity f).Under r := by
  have hst := Store.Retains.put_global m.store name (.native ⟨m.hostFunctions.size, name, arity⟩)
  have hstore := h.withStore hst fun scope key value hv => by
    rcases Store.get?_of_put hv with rfl | hold
    · exact .inl trivial
    · exact .inl (h.store scope key value hold)
  refine ⟨hstore.global, hstore.store, hstore.fields, fun g hg => ?_⟩
  rcases Array.mem_push.1 hg with hg | rfl
  · exact h.hostFunctions g hg
  · exact hf

theorem under_withClock (r : Regime) (now : Number) : (Machine.withClock now).Under r := by
  refine (under_empty r).register "clock" 0 ?_
  rintro s arguments value - ⟨⟩
  trivial

end Machine

namespace Session

variable {s t : Session} {bound : Nat} {source : String} {c : Configuration}

/-- If this text is read as a program, then as one under the regime. -/
def ReadsUnder (r : Regime) (s : Session) (source : String) : Prop :=
  ∀ statements, (Reading.ofSource source s.nextId).result = .ok statements →
    Stmt.UnderAll r statements

theorem under_start (r : Regime) (now : Number) (output : Output) :
    ((start now).withOutput output).machine.Under r :=
  (Machine.under_withClock r now).of_eq rfl rfl rfl

/-- Every part of the run of the text is under the regime. -/
theorem under_of_does (h : s.machine.Under r) (hcode : s.ReadsUnder r source)
    (hc : s.Does bound source c) : c.Under r := by
  obtain ⟨statements, found, hread, -, hreach⟩ := hc
  have hprogram : Configuration.Under r ⟨bound, { s.machine with
      depths := s.machine.depths.insertMany found }, .program statements⟩ :=
    ⟨h.of_eq rfl rfl rfl, hcode _ hread⟩
  exact hprogram.reaches hreach

/-- However the run of the text ends, the machine stays under the regime. -/
theorem under_of_run (h : s.machine.Under r) (hcode : s.ReadsUnder r source)
    (hrun : (run bound source s).state? = some t) : t.machine.Under r := by
  rcases cases_of_run hrun with ⟨k, -, rfl⟩ | ⟨statements, u, m, hread, hp, hm, rfl⟩
  · exact h
  · obtain ⟨found, -, hmachine⟩ := hp.machine
    have hu : u.machine.Under r := by
      rw [hmachine]
      exact h.of_eq rfl rfl rfl
    exact ((abides_runProgram bound hu (hcode _ hread)).of_state hm).1

theorem readsUnder_ofReading (s : Session) (source : String) : s.ReadsUnder .ofReading source := by
  intro statements hread
  have hordinary := ordinary_of_ofSource hread
  exact ⟨hordinary, hordinary.ownFunctionsAll⟩

/-- With functions of the host that make none of their own, every session is under the regime of
what can be read. -/
theorem Arises.under_ofReading (h : s.Arises HostFunction.Passive) :
    s.machine.Under .ofReading := by
  induction h with
  | start now output => exact under_start .ofReading now output
  | register name arity _ hf ih => exact ih.register name arity (hf.under .ofReading)
  | @run s t bound source _ hrun ih => exact under_of_run ih (readsUnder_ofReading s source) hrun

end Session

end Lox
