import Mathlib
import Lox.Proofs.Evaluation.Sinks
import Lox.Proofs.Session.Arising
import Lox.Proofs.Session.History
import Lox.Proofs.Syntax.Equality

/-!
# Sinks that fail

A text that is run with a sink that stops taking text ends as it would have ended, or at the first print
statement whose text is refused. Nothing that is printed is left out in between.
-/

namespace Lox

open Procedure

namespace Session

variable {s t : Session} {bound : Nat} {source : String}

/-- The session with another sink behind what has been written. -/
def withSink (sink : Sink) (s : Session) : Session :=
  { s with machine := s.machine.withSink sink }

/-- What a text comes to with some sink, it comes to with one that takes everything. -/
theorem Does.everything {sink : Sink} {c : Configuration}
    (h : (s.withSink sink).Does bound source c) :
    (s.withSink Sink.everything).Does bound source (c.withSink Sink.everything) := by
  obtain ⟨statements, found, hread, hresolve, hreach⟩ := h
  exact ⟨statements, found, hread, hresolve, hreach.everything⟩

/-- The text comes to a statement that prints the expression with a sink that takes everything, and on the
same machine otherwise with this sink, which refuses the text of the value or the line break. -/
def Refuses (s : Session) (sink : Sink) (bound : Nat) (source : String) (e : Expr) : Prop :=
  ∃ c : Configuration, (s.withSink Sink.everything).Does bound source (c.withSink Sink.everything) ∧
    (s.withSink sink).Does bound source c ∧ c.Refuses e

theorem refuses_of_run {sink : Sink} {line : Nat}
    (h : run bound source (s.withSink sink) = .error (.failed ⟨.outputClosed, line⟩) t) :
    ∃ e, s.Refuses sink bound source e ∧ line = e.line?.getD 0 := by
  obtain ⟨c, hdoes, hraises⟩ := exists_origin h
  obtain ⟨e, hrefuses, hline⟩ := hraises.refuses_of_outputClosed
  exact ⟨e, ⟨c, hdoes.everything, hdoes, hrefuses⟩, hline⟩

/-- A text is turned down whatever the sink, or its program is run on machines with one and the other. -/
theorem run_withSink_cases (s : Session) (bound : Nat) (source : String) (sink : Sink) :
    run bound source (s.withSink sink) =
        (run bound source (s.withSink Sink.everything)).mapState (.withSink sink) ∨
      ∃ statements m k, m.output.accepts = Sink.everything ∧
        run bound source (s.withSink Sink.everything) =
          onMachine (runProgram bound statements) ⟨m, k⟩ ∧
        run bound source (s.withSink sink) =
          onMachine (runProgram bound statements) ⟨m.withSink sink, k⟩ := by
  cases hread : (Reading.ofSource source s.nextId).result with
  | error faults =>
    have hrun (sink : Sink) := run_of_unread bound (s := s.withSink sink) hread
    rw [hrun, hrun]
    exact .inl rfl
  | ok statements =>
    cases hresolve : resolve statements with
    | error faults =>
      have hrun (sink : Sink) := run_of_unresolved bound (s := s.withSink sink) hread hresolve
      rw [hrun, hrun]
      exact .inl rfl
    | ok found =>
      have hrun (sink : Sink) := run_of_resolve bound (s := s.withSink sink) hread hresolve
      exact .inr ⟨statements, _, _, rfl, hrun Sink.everything, hrun sink⟩

/-- A failing sink only cuts a run short. If the run of a text ends with a sink that takes everything,
it ends with any other sink: in the same way and with the same output, or at a print statement of that run
whose text was refused, as a failure to write on the line of the printed expression. In that case the
output begins the full one, and the environment and the number of calls under way are restored. -/
theorem failing_sink_cuts_short (s : Session) (bound : Nat) (source : String) (sink : Sink)
    (hends : run bound source (s.withSink Sink.everything) ≠ .exhausted) :
    run bound source (s.withSink sink) =
        (run bound source (s.withSink Sink.everything)).mapState (.withSink sink) ∨
      ∃ e full cut, s.Refuses sink bound source e ∧
        (run bound source (s.withSink Sink.everything)).state? = some full ∧
        run bound source (s.withSink sink) =
          .error (.failed ⟨.outputClosed, e.line?.getD 0⟩) cut ∧
        (∃ rest, full.printed = cut.printed ++ rest) ∧
        cut.machine.environment = s.machine.environment ∧
        cut.machine.callDepth = s.machine.callDepth := by
  rcases run_withSink_cases s bound source sink with hsame | ⟨statements, m, k, hm, hfull, hrun⟩
  · exact .inl hsame
  rw [hfull] at hends ⊢
  -- The program starts on the same machine with both sinks, so its run goes the same way or is cut short.
  rcases ((Run.CutsShort.closed sink).runProgram bound statements).cutShort m hm with
    hsame | ⟨⟨fault, line⟩, cut, hcut, hfault, hbegins⟩
  · refine .inl ?_
    rw [hrun, onMachine, onMachine, hsame]
    cases runProgram bound statements m <;> rfl
  · obtain rfl : fault = .outputClosed := hfault
    have hfails : run bound source (s.withSink sink) =
        .error (.failed ⟨.outputClosed, line⟩) ⟨cut, k⟩ := by
      rw [hrun, onMachine, hcut]
    obtain ⟨_, hrestored⟩ := restored_of_run (congrArg Outcome.state? hfails)
    obtain ⟨e, hrefuses, rfl⟩ := refuses_of_run hfails
    cases ho : runProgram bound statements m with
    | exhausted =>
      rw [onMachine, ho] at hends
      exact absurd rfl hends
    | ok a after | error failure after =>
      refine .inr ⟨e, ⟨after, k⟩, ⟨cut, k⟩, hrefuses, ?_, hfails,
        hbegins after (congrArg Outcome.state? ho),
        hrestored.environment, hrestored.callDepth⟩
      rw [onMachine, ho]
      rfl

/-- The text of a function that prints twice and of a call of it. -/
def printTwice : String := "fun f() { print true; print !true; }\n{ f(); }"

/-- The sink that accepts seven characters in all. -/
def sevenCharacters : Sink := fun text _ => 7 - text.length

/-- With a sink that accepts seven characters the call ends while it prints for the second time. -/
theorem failing_sink_cuts_short_printTwice :
    run 14 printTwice ((start ⟨0⟩).withSink Sink.everything) ≠ .exhausted ∧
      ∃ e full cut, (start ⟨0⟩).Refuses sevenCharacters 14 printTwice e ∧
        (run 14 printTwice ((start ⟨0⟩).withSink Sink.everything)).state? = some full ∧
        run 14 printTwice ((start ⟨0⟩).withSink sevenCharacters) =
          .error (.failed ⟨.outputClosed, e.line?.getD 0⟩) cut ∧
        full.printed = "true\nfalse\n" ∧ cut.printed = "true\nfa" := by
  let statements : List Stmt :=
    [.function ⟨⟨"f", 1⟩, [], [.print (.literal (.bool true)),
      .print (.unary .not (.literal (.bool true)) 1)]⟩,
    .block [.expression (.call (.reference ⟨0, ⟨"f", 2⟩⟩) [] 2)]]
  have hread : (Reading.ofSource printTwice 0).result = .ok statements := by decide +kernel
  have hresolve : resolve statements = .ok [] := by decide +kernel
  have hrun (sink : Sink) : run 14 printTwice ((start ⟨0⟩).withSink sink) =
      onMachine (runProgram 14 statements)
        ⟨((start ⟨0⟩).withSink sink).machine, (Reading.ofSource printTwice 0).nextId⟩ :=
    run_of_resolve_nil 14 hread hresolve
  generalize (Reading.ofSource printTwice 0).nextId = k at hrun
  have hfull : (run 14 printTwice ((start ⟨0⟩).withSink Sink.everything)).state?.map printed =
      some "true\nfalse\n" := by
    rw [hrun]
    cbv
  have hcut : (run 14 printTwice ((start ⟨0⟩).withSink sevenCharacters)).state?.map printed =
      some "true\nfa" := by
    rw [hrun]
    cbv
  have hends : run 14 printTwice ((start ⟨0⟩).withSink Sink.everything) ≠ .exhausted := by
    intro h
    rw [h] at hfull
    cases hfull
  refine ⟨hends, ?_⟩
  rcases failing_sink_cuts_short (start ⟨0⟩) 14 printTwice sevenCharacters hends with
    hsame | ⟨e, full, cut, hrefuses, hstate, hfails, -⟩
  · have htext : ∀ o : Outcome Session Error Unit,
        (o.mapState (withSink sevenCharacters)).state?.map printed = o.state?.map printed := by
      intro o
      cases o <;> rfl
    rw [hsame, htext, hfull] at hcut
    exact absurd hcut (by decide)
  · rw [hstate] at hfull
    rw [hfails] at hcut
    exact ⟨e, full, cut, hrefuses, hstate, hfails, Option.some.inj hfull, Option.some.inj hcut⟩

end Session

end Lox
