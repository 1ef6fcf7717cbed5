import Lox.Proofs.Evaluation.Overflows
import Lox.Proofs.Session.Termination

/-!
# The limit on calls

Under a higher limit on calls a text runs as it runs under the usual one, unless it runs into the limit.
It does so at a call only, when as many calls are under way as the limit allows, and the function that is
called is not entered.
-/

namespace Lox

open Procedure

namespace Session

variable {s t : Session} {bound limit : Nat} {source : String}

/-- A text that is turned down is turned down under every limit on calls. -/
theorem run_withCallLimit_rejected {faults : List Diagnostic}
    (h : run bound source s = .error (.rejected faults) t) :
    run bound source (s.withCallLimit limit) = .error (.rejected faults) (t.withCallLimit limit) := by
  cases hread : (Reading.ofSource source s.nextId).result with
  | error others =>
    rw [run_of_unread bound hread] at h
    cases h
    exact run_of_unread bound (s := s.withCallLimit limit) hread
  | ok statements =>
    cases hresolve : resolve statements with
    | error others =>
      rw [run_of_unresolved bound hread hresolve] at h
      cases h
      exact run_of_unresolved bound (s := s.withCallLimit limit) hread hresolve
    | ok found =>
      rw [run_of_resolve bound hread hresolve] at h
      obtain ⟨failure, he, -⟩ := failed_of_onMachine _ _ h
      cases he

/-- An error that is not a stack overflow is the same one under a higher limit. -/
theorem run_withCallLimit_error {e : Session.Error} (hlimit : s.machine.maxCallDepth ≤ limit)
    (h : run bound source s = .error e t) (he : ∀ line, e ≠ .failed ⟨.stackOverflow, line⟩) :
    run bound source (s.withCallLimit limit) = .error e (t.withCallLimit limit) := by
  cases e with
  | rejected faults => exact run_withCallLimit_rejected h
  | failed failure =>
    rcases (run_withCallLimit hlimit).2 failure t h with hfault | hsame
    · obtain ⟨fault, line⟩ := failure
      obtain rfl : fault = .stackOverflow := hfault
      exact absurd rfl (he line)
    · exact hsame

/-- Running the text comes to this task, and so many calls are around it. -/
def DoesInside (s : Session) (bound : Nat) (source : String) (calls : Nat) (c : Configuration) : Prop :=
  ∃ statements found, (Reading.ofSource source s.nextId).result = .ok statements ∧
    resolve statements = .ok found ∧
    Configuration.Encloses ⟨bound, { s.machine with depths := s.machine.depths.insertMany found },
      .program statements⟩ calls c

/-- A run that ends in a stack overflow came to a call when as many calls were under way as the limit
allows. -/
theorem exists_attempt {line : Nat} (hs : s.machine.callDepth = 0)
    (h : run bound source s = .error (.failed ⟨.stackOverflow, line⟩) t) :
    ∃ c m, s.DoesInside bound source s.machine.maxCallDepth c ∧ c.Attempts line m ∧
      m.callDepth = s.machine.maxCallDepth ∧ m.maxCallDepth ≤ m.callDepth := by
  obtain ⟨c, ⟨statements, found, hread, hresolve, hreach⟩, hraises⟩ := exists_origin h
  obtain ⟨m, hattempts, hfull⟩ := hraises.attempts_of_stackOverflow
  obtain ⟨calls, hencloses⟩ := Configuration.exists_encloses_of_reaches hreach
  obtain ⟨hcalls, hmax⟩ := hencloses.calls_eq_maxCallDepth hattempts hfull hs
  have hmax' : m.callDepth = s.machine.maxCallDepth := hmax
  have hcalls' : calls = s.machine.maxCallDepth := hcalls
  exact ⟨c, m, ⟨statements, found, hread, hresolve, hcalls' ▸ hencloses⟩, hattempts, hmax', hfull⟩

/-- The limit on calls is a guard and nothing else. In every session in which no call is under way, and
for every limit from 255 on, a text whose run ends without a stack overflow when the limit is 255 ends
under the other limit, too, with the same result, the same output and the same session otherwise. It ends
in a stack overflow at 255 only where 255 calls are around a call of a value that takes as many arguments
as it is given; that call fails without starting what it calls, and changes nothing. -/
theorem call_limit_only_guards (hs : s.machine.callDepth = 0) (hlimit : 255 ≤ limit) (bound : Nat)
    (source : String) :
    (∀ t, run bound source (s.withCallLimit 255) = .ok () t →
      run bound source (s.withCallLimit limit) = .ok () (t.withCallLimit limit)) ∧
    (∀ e t, run bound source (s.withCallLimit 255) = .error e t →
      (∀ line, e ≠ .failed ⟨.stackOverflow, line⟩) →
      run bound source (s.withCallLimit limit) = .error e (t.withCallLimit limit)) ∧
    ∀ line t, run bound source (s.withCallLimit 255) = .error (.failed ⟨.stackOverflow, line⟩) t →
      ∃ c m, (s.withCallLimit 255).DoesInside bound source 255 c ∧ c.Attempts line m ∧
        m.callDepth = 255 ∧ c.failure? = some ⟨.stackOverflow, line⟩ ∧ c.after? = some m ∧
        ∀ d, c.Starts d → d.task.calls = 0 := by
  have hraised : (s.withCallLimit 255).machine.maxCallDepth ≤ limit := hlimit
  refine ⟨fun t h => (run_withCallLimit hraised).1 t h,
    fun e t h he => run_withCallLimit_error (s := s.withCallLimit 255) hraised h he, fun line t h => ?_⟩
  obtain ⟨c, m, hdoes, hattempts, hcalls, hfull⟩ := exists_attempt (s := s.withCallLimit 255) hs h
  exact ⟨c, m, hdoes, hattempts, hcalls, hattempts.turned_down hfull⟩

/-- Recursion without bound ends when 255 calls are under way. For want of an end under higher limits
it cannot end in any other way. -/
theorem call_limit_only_guards_recursion :
    let s := (start ⟨0⟩).withOutput .unlimited
    s.machine.callDepth = 0 ∧
    (∀ bound, ∃ limit, 255 ≤ limit ∧
      run bound "fun f() { f(); } f();" (s.withCallLimit limit) = .exhausted) ∧
    ∃ bound line t c m,
      run bound "fun f() { f(); } f();" (s.withCallLimit 255) =
        .error (.failed ⟨.stackOverflow, line⟩) t ∧
      (s.withCallLimit 255).DoesInside bound "fun f() { f(); } f();" 255 c ∧
      c.Attempts line m ∧ m.callDepth = 255 ∧ c.after? = some m := by
  intro s
  have hidle : s.machine.callDepth = 0 := rfl
  have hexhausted : ∀ bound, ∃ limit, 255 ≤ limit ∧
      run bound "fun f() { f(); } f();" (s.withCallLimit limit) = .exhausted := by
    intro bound
    obtain ⟨limit, hlimit⟩ := endless_selfCaller bound
    exact ⟨max limit 255, Nat.le_max_right _ _, hlimit _ (Nat.le_max_left _ _)⟩
  refine ⟨hidle, hexhausted, ?_⟩
  have haccepted : check "fun f() { f(); } f();" = .ok () := by decide +kernel
  have hsource : Loopless "fun f() { f(); } f();" := by decide +kernel
  rcases (ArisesLoopless.start ⟨0⟩ .unlimited).run_ends haccepted hsource with
    ⟨t, bound, hends⟩ | ⟨⟨fault, line⟩, t, bound, hends⟩
  · obtain ⟨limit, hlimit, hendless⟩ := hexhausted bound
    have hsame := (call_limit_only_guards hidle hlimit bound "fun f() { f(); } f();").1 t
      (hends bound (Nat.le_refl bound))
    cases hendless.symm.trans hsame
  · obtain ⟨limit, hlimit, hendless⟩ := hexhausted bound
    obtain ⟨-, hsame, hattempt⟩ :=
      call_limit_only_guards hidle hlimit bound "fun f() { f(); } f();"
    have hfails := hends bound (Nat.le_refl bound)
    by_cases hfault : fault = .stackOverflow
    · subst hfault
      obtain ⟨c, m, hdoes, hattempts, hcalls, -, hafter, -⟩ := hattempt line t hfails
      exact ⟨bound, line, t, c, m, hfails, hdoes, hattempts, hcalls, hafter⟩
    · have hother : ∀ other, Session.Error.failed ⟨fault, line⟩ ≠ .failed ⟨.stackOverflow, other⟩ := by
        intro other h
        cases h
        exact hfault rfl
      cases hendless.symm.trans (hsame _ t hfails hother)

end Session

end Lox
