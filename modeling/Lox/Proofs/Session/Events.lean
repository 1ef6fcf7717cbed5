import Lox.Proofs.Evaluation.Holdings
import Lox.Proofs.Session.Chronicle

/-!
# The events of a session

The events of all programs that a session has run, and of one more that may be cut short. What there is
at an event comes of tasks that began before it, and fields have what was written to them last.
-/

namespace Lox

open Procedure

/-- The programs that a session has run, and one more that it runs now, as far as the bound lets it. -/
inductive Session.Course (allowed : HostFunction → Prop) : List Configuration → Prop where
  | intro {past : List Configuration} {s : Session} {bound : Nat} {source : String}
      {program : Configuration} (before : Lives allowed past s)
      (hp : s.program? bound source = some program) : Course allowed (past ++ [program])

namespace Configuration

variable {programs : List Configuration} {c : Configuration} {m : Machine}

/-- What begins is what the programs come to. -/
theorem begins_mem_events : .begins c ∈ events programs ↔ Begins programs c := by
  simp only [events, List.mem_flatMap, begins_mem_trace_iff, Begins]

/-- All that begins ends, unless its bound is too small. -/
theorem ends_mem_events :
    .ends c m ∈ events programs ↔ Begins programs c ∧ c.after? = some m := by
  simp only [events, List.mem_flatMap, ends_mem_trace_iff, Begins]
  constructor
  · rintro ⟨program, hmem, hreach, hafter⟩
    exact ⟨⟨program, hmem, hreach⟩, hafter⟩
  · rintro ⟨⟨program, hmem, hreach⟩, hafter⟩
    exact ⟨program, hmem, hreach, hafter⟩

end Configuration

namespace Session.Course

variable {programs : List Configuration} {c d : Configuration} {before later : List Event}
  {e x : Event}

theorem begun (h : Course HostFunction.Inert programs) : Begun (Configuration.Begins programs) := by
  obtain ⟨hs, hp⟩ := h
  exact hs.begun hp

theorem path (h : Course HostFunction.Inert programs) :
    Event.Path .empty (Configuration.events programs) := by
  obtain ⟨hs, hp⟩ := h
  exact hs.path_program hp

theorem rooted_program (h : Course HostFunction.Inert programs) :
    ∀ program ∈ programs, program.Rooted (Configuration.Begins programs) := by
  have H := h.begun
  have hself : ∀ program ∈ programs, Configuration.Begins programs program :=
    fun _ => Configuration.Begins.of_mem
  obtain ⟨hs, hp⟩ := h
  rw [List.forall_mem_append] at hself ⊢
  obtain ⟨hm, hpast⟩ := hs.rooted H hself.1
  refine ⟨hpast, fun program hmem => ?_⟩
  obtain rfl := List.mem_singleton.1 hmem
  exact hs.rooted_program hm hp (hself.2 _ hmem)

/-- All that begins in the session has roots among what begins in it. -/
theorem rooted (h : Course HostFunction.Inert programs) (hc : Configuration.Begins programs c) :
    c.Rooted (Configuration.Begins programs) := by
  obtain ⟨program, hmem, hreach⟩ := hc
  exact (h.rooted_program program hmem).reaches h.begun hreach

theorem rooted_event (h : Course HostFunction.Inert programs)
    (he : e ∈ Configuration.events programs) : e.Rooted (Configuration.Begins programs) := by
  obtain ⟨program, hmem, he⟩ := List.mem_flatMap.1 he
  exact Event.rooted_of_mem h.begun (h.rooted_program program hmem) he

theorem writesInside (h : Course HostFunction.Inert programs) :
    Event.WritesInside (Configuration.events programs) := by
  intro e he w hw
  cases e with
  | begins c => cases hw
  | ends c after =>
    obtain ⟨hbegins, hafter⟩ := Configuration.ends_mem_events.1 he
    exact Event.write?_inside h.begun (h.rooted hbegins) hw hafter

section Split

variable (h : Course HostFunction.Inert programs)
  (hsplit : Configuration.events programs = before ++ e :: later)

include h hsplit

theorem grows_later (hx : x ∈ later) : e.machine.Grows x.machine := by
  have hpairs := h.path.pairwise
  rw [hsplit, List.pairwise_append] at hpairs
  exact List.rel_of_pairwise_cons hpairs.2.1 hx

theorem grows_earlier (hx : x ∈ before) : x.machine.Grows e.machine := by
  have hpairs := h.path.pairwise
  rw [hsplit, List.pairwise_append] at hpairs
  exact hpairs.2.2 x hx e (.head _)

theorem rooted_at : e.Rooted (Configuration.Begins programs) :=
  h.rooted_event (hsplit ▸ List.mem_append_right _ (.head _))

/-- What began, but not from the machine at an event on, began before it. -/
theorem begins_before (hd : Configuration.Begins programs d) (hnew : ¬ e.machine.Grows d.machine) :
    .begins d ∈ before := by
  have hmem := Configuration.begins_mem_events.2 hd
  rw [hsplit, List.mem_append, List.mem_cons] at hmem
  rcases hmem with hmem | rfl | hmem
  · exact hmem
  · exact absurd (.refl _) hnew
  · exact absurd (h.grows_later hsplit hmem) hnew

/-- A class that there is comes of declarations that began before. -/
theorem exists_declaredBy {b : Class} (hb : b.Rooted (Configuration.Begins programs) e.machine) :
    ∃ declarations, b.DeclaredBy declarations ∧ ∀ d ∈ declarations, .begins d ∈ before := by
  obtain ⟨declarations, hdeclared, hall⟩ := hb.exists_declaredBy
  refine ⟨declarations, hdeclared, fun d hd => ?_⟩
  obtain ⟨hbegins, a, hmade⟩ := hall d hd
  exact h.begins_before hsplit hbegins hmade.not_grows

/-- A field has what was written to it last. -/
theorem get?_fields (object : Nat) (name : String) :
    e.machine.fields.get? object name = Event.lastWrite object name (before ++ [e]) := by
  have hpath := h.path
  have hinside := h.writesInside
  have hassoc : before ++ e :: later = (before ++ [e]) ++ later := by simp
  rw [hsplit, hassoc] at hpath hinside
  have hfields : (Event.last .empty (before ++ [e])).fields.get? object name = _ :=
    (Event.Path.append_iff.1 hpath).1.get?_fields
      (fun x hx => hinside x (List.mem_append_left _ hx)) rfl
  rwa [Event.last_append] at hfields

end Split

end Session.Course

end Lox
