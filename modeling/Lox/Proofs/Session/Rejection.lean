import Lox.Proofs.Session.Arising

/-!
# Texts that are turned down

A text with a static fault leaves the machine as it was. Nothing that is run later can tell that it was
there: the calls after it get other node numbers, and otherwise all that they come to stays the same.
-/

namespace Lox

open Procedure

/-- What a procedure without a value came to, and the state that it left. -/
def Outcome.result? {σ ε : Type} : Outcome σ ε Unit → Option (Except ε Unit × σ)
  | .ok _ s => some (.ok (), s)
  | .error e s => some (.error e, s)
  | .exhausted => none

namespace Session

/-- A call of `run` that has ended: its text, what came of it, and all that the session has printed. -/
structure Call where
  source : String
  result : Except Session.Error Unit
  printed : String

/-- The text had a static fault. -/
def Call.isRejected : Call → Bool
  | ⟨_, .error (.rejected _), _⟩ => true
  | _ => false

/-- These calls lead from the first session to the second. -/
inductive History : Session → List Call → Session → Prop where
  | nil (s : Session) : History s [] s
  | cons {s t u : Session} {bound : Nat} {source : String} {result : Except Session.Error Unit}
      {calls : List Call} (hrun : (run bound source s).result? = some (result, t))
      (rest : History t calls u) : History s (⟨source, result, t.printed⟩ :: calls) u

/-- A text that is turned down leaves nothing on the machine. -/
theorem machine_eq_of_rejected {s t : Session} {bound : Nat} {source : String}
    {faults : List Diagnostic} (h : run bound source s = .error (.rejected faults) t) :
    t.machine = s.machine := by
  rcases run_cases bound source s with ⟨faults', k, -, he⟩ | ⟨body, u, -, hu, he⟩
  · rw [he] at h
    cases h
    rfl
  · rw [he] at h
    obtain ⟨failure, hfailed, -⟩ := failed_of_onMachine _ _ h
    cases hfailed

/-- From like sessions, all but the calls that were turned down can be made again, and they come to the
same. -/
theorem History.without_rejected {s t u : Session} {calls : List Call} (h : History s calls t)
    (hsu : s.Alike u) :
    ∃ v, History u (calls.filter (!·.isRejected)) v ∧ t.Alike v := by
  induction h generalizing u with
  | nil s => exact ⟨u, .nil u, hsu⟩
  | @cons s t last bound source result calls hrun _ ih =>
    rcases hsu.run bound source with ⟨⟨faults, k, hk, he⟩, -⟩ | hagree
    · rw [he] at hrun
      cases hrun
      exact ih (hsu.skip hk)
    · rcases hagree.cases with ⟨_, _, s', u', hx, hy, halike⟩ |
        ⟨_, _, s', u', hx, hy, rfl, ⟨failure, rfl⟩, halike⟩ | ⟨hx, -⟩
      · rw [hx] at hrun
        cases hrun
        obtain ⟨v, hv, hlast⟩ := ih halike
        rw [halike.printed_eq]
        exact ⟨v, .cons (by rw [hy]; rfl) hv, hlast⟩
      · rw [hx] at hrun
        cases hrun
        obtain ⟨v, hv, hlast⟩ := ih halike
        rw [halike.printed_eq]
        exact ⟨v, .cons (by rw [hy]; rfl) hv, hlast⟩
      · rw [hx] at hrun
        cases hrun

theorem Alike.exhausted_iff {s t : Session} (h : s.Alike t) (bound : Nat) (source : String) :
    Session.run bound source s = .exhausted ↔ Session.run bound source t = .exhausted := by
  rcases h.run bound source with ⟨⟨_, _, -, hs⟩, ⟨_, _, -, ht⟩⟩ | hagree
  · rw [hs, ht]
    exact iff_of_false nofun nofun
  · rcases hagree.cases with ⟨_, _, _, _, hx, hy, -⟩ | ⟨_, _, _, _, hx, hy, -⟩ | ⟨hx, hy⟩
    · rw [hx, hy]
      exact iff_of_false nofun nofun
    · rw [hx, hy]
      exact iff_of_false nofun nofun
    · exact iff_of_true hx hy

/-- A statically rejected program leaves no trace. It leaves the whole machine as it was, and so prints
nothing. Without the calls that were turned down a history of a session takes the same course: each of
the other calls has the same result and prints the same, and a call that comes next either ends in both
sessions or in none. -/
theorem rejected_leaves_no_trace :
    (∀ s bound source faults t, run bound source s = .error (.rejected faults) t →
      t.machine = s.machine ∧ t.printed = s.printed) ∧
    ∀ s calls t, s.Arises HostFunction.Uniform → History s calls t →
      ∃ u, History s (calls.filter (!·.isRejected)) u ∧ u.printed = t.printed ∧
        ∀ bound source, run bound source t = .exhausted ↔ run bound source u = .exhausted := by
  refine ⟨fun s bound source faults t h => ?_, fun s calls t hs h => ?_⟩
  · have hmachine := machine_eq_of_rejected h
    exact ⟨hmachine, congrArg (·.output.text) hmachine⟩
  · obtain ⟨u, hu, halike⟩ := h.without_rejected hs.alike
    exact ⟨u, hu, halike.printed_eq.symm, halike.exhausted_iff⟩

/-- A text that is no program, in a new session. -/
theorem rejected_leaves_no_trace_sign :
    ∃ faults t, run 0 "+" ((Session.start ⟨0⟩).withOutput .unlimited) = .error (.rejected faults) t ∧
      t.machine = ((Session.start ⟨0⟩).withOutput .unlimited).machine ∧
      ∃ u, History ((Session.start ⟨0⟩).withOutput .unlimited) [] u ∧ u.printed = t.printed := by
  have hread : (Reading.ofSource "+" 0).result.toOption.isNone = true := by decide +kernel
  cases hresult : (Reading.ofSource "+" 0).result with
  | ok body =>
    rw [hresult] at hread
    cases hread
  | error faults =>
    have hrun : run 0 "+" ((Session.start ⟨0⟩).withOutput .unlimited) = .error (.rejected faults)
        { (Session.start ⟨0⟩).withOutput .unlimited with
          nextId := (Reading.ofSource "+" 0).nextId } := by
      simp only [run, bind_apply, accept, Session.start, withOutput, hresult]
    obtain ⟨u, hu, hprinted, -⟩ := rejected_leaves_no_trace.2 _ [⟨"+", .error (.rejected faults), _⟩] _
      (.start _ _) (.cons (by rw [hrun]; rfl) (.nil _))
    exact ⟨faults, _, hrun, (rejected_leaves_no_trace.1 _ _ _ _ _ hrun).1, u, hu, hprinted⟩

end Session

end Lox
