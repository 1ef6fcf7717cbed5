import Lox.Proofs.Evaluation.Dispatch
import Lox.Proofs.Session.Events

/-!
# Properties of instances

A property of an instance is what was written to its field last. If nothing was, it is the method of the
nearest declaration in the chain of its class, bound to the instance for good.
-/

namespace Lox

open Procedure

namespace Configuration

/-- The instance that a task reads a property of. -/
def receiver? : Configuration → Option Instance
  | ⟨n + 1, m, .expression (.get object _)⟩ =>
    match object.evaluate n m with
    | .ok (.ofInstance i) _ => some i
    | _ => none
  | _ => none

theorem exists_of_receiver? {c : Configuration} {i : Instance} (h : c.receiver? = some i) :
    ∃ n m object name after, c = ⟨n + 1, m, .expression (.get object name)⟩ ∧
      object.evaluate n m = .ok (.ofInstance i) after := by
  unfold receiver? at h
  split at h
  · next n m object name =>
    split at h
    · next found after ho =>
      cases h
      exact ⟨n, m, object, name, after, rfl, ho⟩
    · cases h
  · cases h

end Configuration

namespace Session

variable {programs : List Configuration} {before later : List Event} {e : Event}

/-- When a property of an instance is read in a run, the instance is there. -/
theorem has_object {n : Nat} {m after : Machine} {object : Expr} {name : Identifier} {i : Instance}
    (hc : Configuration.Begins programs ⟨n + 1, m, .expression (.get object name)⟩)
    (ho : object.evaluate n m = .ok (.ofInstance i) after) :
    .ends ⟨n, m, .expression object⟩ after ∈ Configuration.events programs ∧
      Event.Has (.ends ⟨n, m, .expression object⟩ after) (.ofInstance i) := by
  obtain ⟨program, hmem, hreach⟩ := hc
  refine ⟨Configuration.ends_mem_events.2 ⟨⟨program, hmem, hreach.tail .getObject⟩, ?_⟩, .result ?_⟩
  · show (object.evaluate n m).state? = some after
    rw [ho]
    rfl
  · show Value.ofInstance i ∈ (object.evaluate n m).next _
    rw [ho]
    exact .head _

/-- Reading a property of an instance. -/
theorem evaluate_get {n : Nat} {m after : Machine} {object : Expr} {name : Identifier} {i : Instance}
    (ho : object.evaluate n m = .ok (.ofInstance i) after) :
    (Expr.get object name).evaluate (n + 1) m = Run.property i name after := by
  rw [Expr.evaluate, bind_apply_of_ok ho]

/-- Fields come first, then the nearest override. At every event of a session, a property of an instance
that is there is the value that has been written to this field of the same instance last, if anything
has been written to it. Otherwise it is what a lookup gives among the declarations that the chain of its
class comes of, nearest first: the last method of the name in the nearest declaration that has one, as
a function with an identity that no function has had before, bound to the instance; or a failure, if no
declaration has such a method. Every class that there is comes of declarations that have begun before,
one for each class in its chain, and the classes of a chain are the newer the nearer. A write changes
one field of one instance and nothing else, and a function that is bound to an instance is bound to it,
with the same code, at all later events. -/
theorem property_reads_field_or_nearest_method (h : Course HostFunction.Inert programs)
    (hsplit : Configuration.events programs = before ++ e :: later) :
    (∀ i (name : Identifier), e.Has (.ofInstance i) →
      ∃ declarations, i.ofClass.DeclaredBy declarations ∧
        (∀ d ∈ declarations, .begins d ∈ before) ∧
        ∀ n m object, object.evaluate n m = .ok (.ofInstance i) e.machine →
          ReadsProperty (Event.lastWrite i.id name.text (before ++ [e])) declarations name i e.machine
            ((Expr.get object name).evaluate (n + 1) m)) ∧
    (∀ c, (e.Has (.ofClass c) ∨ ∃ i, e.Has (.ofInstance i) ∧ i.ofClass = c) →
      ∃ declarations, c.DeclaredBy declarations ∧ (∀ d ∈ declarations, .begins d ∈ before) ∧
        c.chain.Pairwise fun below above => above.id < below.id) ∧
    (∀ x ∈ before ++ [e], ∀ f, x.Has (.function f) → f.id < e.machine.nextIdentity) ∧
    (∀ w, e.write? = some w → e.machine = (Event.last .empty before).written w) ∧
    ∀ (method f : Function) (i : Instance), f.BoundTo e.machine method i →
      ∀ x ∈ later, f.BoundTo x.machine method i := by
  have hroots := h.rooted_at hsplit
  have hclass : ∀ i, e.Has (.ofInstance i) → i.ofClass.Rooted _ e.machine := fun i hi =>
    (hroots.values _ hi : Instance.Rooted _ _ i).ofClass
  refine ⟨fun i name hi => ?_, fun c hc => ?_, fun x hx f hf => ?_, fun w hw => ?_,
    fun method f i hf x hx => ?_⟩
  · obtain ⟨declarations, hdeclared, hbefore⟩ := h.exists_declaredBy hsplit (hclass i hi)
    refine ⟨declarations, hdeclared, hbefore, fun n m object ho => ?_⟩
    rw [evaluate_get ho, ← h.get?_fields hsplit i.id name.text]
    exact Run.readsProperty hdeclared hroots.machine.global
  · have hc : c.Rooted (Configuration.Begins programs) e.machine := by
      rcases hc with hc | ⟨i, hi, rfl⟩
      · exact hroots.values _ hc
      · exact hclass i hi
    obtain ⟨declarations, hdeclared, hbefore⟩ := h.exists_declaredBy hsplit hc
    exact ⟨declarations, hdeclared, hbefore, hc.pairwise_chain⟩
  · rcases List.mem_append.1 hx with hx | hx
    · have hmem : x ∈ Configuration.events programs := hsplit ▸ List.mem_append_left _ hx
      have hid : f.id < x.machine.nextIdentity :=
        ((h.rooted_event hmem).values _ hf : Function.Rooted _ _ f).id
      exact Nat.lt_of_lt_of_le hid (h.grows_earlier hsplit hx).nextIdentity
    · obtain rfl := List.mem_singleton.1 hx
      exact (hroots.values _ hf : Function.Rooted _ _ f).id
  · have hpath := h.path
    rw [hsplit, Event.Path.append_iff] at hpath
    have hfollows := hpath.2.1
    rw [Event.Follows, hw] at hfollows
    exact hfollows
  · exact hf.mono (h.grows_later hsplit hx)

theorem property_reads_field_or_nearest_method_new :
    ∃ programs before e later, Course HostFunction.Inert programs ∧
      Configuration.events programs = before ++ e :: later ∧
      ∃ n m object i declarations, object.evaluate n m = .ok (.ofInstance i) e.machine ∧
        i.ofClass.DeclaredBy declarations ∧ (∀ d ∈ declarations, .begins d ∈ before) ∧
        ReadsProperty (Event.lastWrite i.id "m" (before ++ [e])) declarations ⟨"m", 1⟩ i e.machine
          ((Expr.get object ⟨"m", 1⟩).evaluate (n + 1) m) := by
  have hreads : ((((start ⟨0⟩).withOutput .unlimited).program? 6 "class A { m() { } } A().m;").bind
      fun program => (program.descend? [1, 0, 0]).bind (·.receiver?)).isSome = true := by
    decide +kernel
  obtain ⟨i, hi⟩ := Option.isSome_iff_exists.1 hreads
  obtain ⟨program, hp, hi⟩ := Option.bind_eq_some_iff.1 hi
  obtain ⟨c, hc, hi⟩ := Option.bind_eq_some_iff.1 hi
  obtain ⟨n, m, object, name, after, rfl, ho⟩ := Configuration.exists_of_receiver? hi
  have hcourse : Course HostFunction.Inert ([] ++ [program]) := .intro (.start ⟨0⟩ .unlimited) hp
  obtain ⟨hends, hhas⟩ := has_object
    ⟨program, List.mem_singleton.2 rfl, Configuration.reaches_of_descend? hc⟩ ho
  obtain ⟨before, later, hsplit⟩ := List.append_of_mem hends
  obtain ⟨declarations, hdeclared, hbefore, hget⟩ :=
    (property_reads_field_or_nearest_method hcourse hsplit).1 i ⟨"m", 1⟩ hhas
  exact ⟨_, before, _, later, hcourse, hsplit, n, m, object, i, declarations, ho, hdeclared, hbefore,
    hget n m object ho⟩

end Session

end Lox
