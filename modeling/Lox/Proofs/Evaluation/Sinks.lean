import Lox.Proofs.Evaluation.Induction
import Lox.Proofs.Evaluation.Origins

/-!
# Other sinks

A sink that refuses to take more text cuts a run short and does nothing else to it. The run is compared
with the one that has a sink which takes everything: they go the same way up to the refusal, which ends
the one of them, while the text of the other only grows.

## Main results

* `Run.CutsShort.closed`: every run is cut short or goes the same way.
* `Configuration.Raises.refuses_of_outputClosed`: nothing but a print statement fails for want of a sink.
-/

namespace Lox

open Procedure

/-- The machine with another sink behind what has been written. -/
def Machine.withSink (sink : Sink) (m : Machine) : Machine :=
  { m with output := { m.output with accepts := sink } }

/-- The second machine has the same sink and what was written before, with more behind it. -/
def Machine.WritesOn (m after : Machine) : Prop :=
  ∃ rest, after.output = { m.output with text := m.output.text ++ rest }

namespace Machine.WritesOn

variable {m after later : Machine}

theorem of_eq (h : after.output = m.output) : m.WritesOn after := ⟨"", by rw [h, String.append_empty]⟩

theorem trans (h : m.WritesOn after) (k : after.WritesOn later) : m.WritesOn later := by
  obtain ⟨first, hfirst⟩ := h
  obtain ⟨second, hsecond⟩ := k
  exact ⟨first ++ second, by rw [hsecond, hfirst, String.append_assoc]⟩

theorem accepts_eq (h : m.WritesOn after) : after.output.accepts = m.output.accepts := by
  obtain ⟨rest, hrest⟩ := h
  rw [hrest]

end Machine.WritesOn

/-- The second outcome is the first one with another sink, unless that sink has refused a text. Then it is
a failure, and what was written begins the text of the first outcome. -/
def Outcome.CutShort {α : Type} (sink : Sink) (o o' : Outcome Machine Failure α) : Prop :=
  o' = o.mapState (.withSink sink) ∨
    ∃ failure cut, o' = .error failure cut ∧ failure.fault = .outputClosed ∧
      ∀ full, o.state? = some full → ∃ rest, full.output.text = cut.output.text ++ rest

namespace Run

/-- However the run of `x` ends, it has only written on. -/
def WritesOn {α : Type} (x : Run α) : Prop := ∀ m after, (x m).state? = some after → m.WritesOn after

/-- With this sink the run of `x` goes as it goes with one that takes everything, or it is cut short. -/
structure CutsShort (sink : Sink) {α : Type} (x : Run α) : Prop where
  writesOn : x.WritesOn
  cutShort : ∀ m, m.output.accepts = Sink.everything →
    (x m).CutShort sink (x (m.withSink sink))

namespace WritesOn

variable {α β : Type} {x : Run α} {f : α → Run β}

theorem plain (h : Plain x) : WritesOn x := by
  intro m after hafter
  have hsame := h.mapState_eq m
  cases ho : x m with
  | ok a after | error e after =>
    rw [ho] at hafter hsame
    cases hafter
    injection hsame with _ hsame
    rw [← hsame]
    exact .of_eq rfl
  | exhausted => exact absurd ho (h.ends m)

theorem write (text : String) (line : Nat) : WritesOn (write text line) := by
  intro m after hafter
  unfold Run.write at hafter
  split at hafter <;> cases hafter <;> exact ⟨_, rfl⟩

theorem bind (hx : WritesOn x) (hf : ∀ a, WritesOn (f a)) : WritesOn (x >>= f) := by
  intro m later hlater
  rw [bind_apply] at hlater
  cases ho : x m with
  | exhausted =>
    rw [ho] at hlater
    cases hlater
  | error e after =>
    rw [ho] at hlater
    exact hx m later (ho ▸ hlater)
  | ok a after =>
    rw [ho] at hlater
    exact (hx m after (congrArg Outcome.state? ho)).trans (hf a after later hlater)

/-- A change after the run that leaves the output alone. -/
theorem afterwards (hx : WritesOn x) {g : Machine → Machine} {start later : Machine}
    (hlater : (afterwards g x start).state? = some later)
    (hg : ∀ after : Machine, (g after).output = after.output) : start.WritesOn later := by
  rw [Procedure.afterwards] at hlater
  cases ho : x start with
  | exhausted =>
    rw [ho] at hlater
    cases hlater
  | error e after | ok a after =>
    rw [ho] at hlater
    cases hlater
    exact (hx start after (congrArg Outcome.state? ho)).trans (.of_eq (hg after))

end WritesOn

namespace CutsShort

variable {α β : Type} {sink : Sink} {x : Run α} {f : α → Run β}

theorem exhaust : CutsShort sink (Procedure.exhaust : Run α) := ⟨nofun, fun _ _ => .inl rfl⟩

theorem plain (h : Plain x) : CutsShort sink x := by
  refine ⟨.plain h, fun m _ => .inl ?_⟩
  have hbeside := h.beside m.callDepth m.maxCallDepth { m.output with accepts := sink } m
  have hsame := h.mapState_eq m
  calc x (m.withSink sink)
    _ = (x m).mapState (.beside m.callDepth m.maxCallDepth { m.output with accepts := sink }) := hbeside
    _ = ((x m).mapState (.beside m.callDepth m.maxCallDepth m.output)).mapState (.withSink sink) := by
      cases x m <;> rfl
    _ = (x m).mapState (.withSink sink) := by rw [hsame]

/-- What is refused has been written in part. -/
theorem write (text : String) (line : Nat) : CutsShort sink (write text line) := by
  refine ⟨.write text line, fun m hm => ?_⟩
  have hfull := Run.write_of_takes line (Output.takes_of_everything hm text)
  by_cases htakes : (m.withSink sink).output.takes text = true
  · refine .inl ?_
    rw [hfull, Run.write_of_takes line htakes]
    rfl
  · refine .inr ⟨⟨.outputClosed, line⟩, _, if_neg htakes, rfl, fun full h => ?_⟩
    rw [hfull] at h
    cases h
    exact Output.exists_rest_of_written (m.withSink sink).output text

/-- A refusal in the first part is one of both, and by then the text has only grown. -/
theorem bind (hx : CutsShort sink x) (hf : ∀ a, CutsShort sink (f a)) :
    CutsShort sink (x >>= f) := by
  refine ⟨.bind hx.writesOn fun a => (hf a).writesOn, fun m hm => ?_⟩
  rcases hx.cutShort m hm with hsame | ⟨failure, cut, hcut, hfault, hbegins⟩
  · rw [bind_apply, bind_apply, hsame]
    cases ho : x m with
    | ok a after =>
      have haccepts := (hx.writesOn m after (congrArg Outcome.state? ho)).accepts_eq
      exact (hf a).cutShort after (haccepts.trans hm)
    | error e after => exact .inl rfl
    | exhausted => exact .inl rfl
  · refine .inr ⟨failure, cut, bind_apply_of_error hcut, hfault, fun full hfull => ?_⟩
    rw [bind_apply] at hfull
    cases ho : x m with
    | ok a after =>
      rw [ho] at hfull
      obtain ⟨first, hfirst⟩ := hbegins after (congrArg Outcome.state? ho)
      obtain ⟨second, hsecond⟩ := (hf a).writesOn after full hfull
      exact ⟨first ++ second, by rw [hsecond, hfirst, String.append_assoc]⟩
    | error e after =>
      rw [ho] at hfull
      exact hbegins full (ho ▸ hfull)
    | exhausted =>
      rw [ho] at hfull
      cases hfull

/-- A run with a change after it that has nothing to do with the output. -/
theorem afterwards (hx : CutsShort sink x) (start : Machine)
    (hm : start.output.accepts = Sink.everything) {g : Machine → Machine}
    (hg : ∀ after : Machine, g (after.withSink sink) = (g after).withSink sink)
    (ho : ∀ after : Machine, (g after).output = after.output) :
    (Procedure.afterwards g x start).CutShort sink
      (Procedure.afterwards g x (start.withSink sink)) := by
  rcases hx.cutShort start hm with hsame | ⟨failure, cut, hcut, hfault, hbegins⟩
  · refine .inl ?_
    rw [Procedure.afterwards, Procedure.afterwards, hsame]
    cases x start with
    | ok a after => exact congrArg _ (hg after)
    | error e after => exact congrArg _ (hg after)
    | exhausted => rfl
  · have hfails : Procedure.afterwards g x (start.withSink sink) = .error failure (g cut) := by
      rw [Procedure.afterwards, hcut]
    refine .inr ⟨failure, g cut, hfails, hfault, fun full hfull => ?_⟩
    rw [Procedure.afterwards] at hfull
    cases hx : x start with
    | exhausted =>
      rw [hx] at hfull
      cases hfull
    | ok a after | error e after =>
      rw [hx] at hfull
      cases hfull
      rw [ho, ho]
      exact hbegins after (congrArg Outcome.state? hx)

theorem inEnvironment (env : Environment) (hx : CutsShort sink x) :
    CutsShort sink (inEnvironment env x) := by
  refine ⟨fun m after hafter => ?_, fun m hm => ?_⟩
  · rw [inEnvironment_apply] at hafter
    have h := hx.writesOn.afterwards hafter fun _ => rfl
    exact h
  · exact hx.afterwards { m with environment := env } hm (fun _ => rfl) fun _ => rfl

/-- Whether a call is turned down has nothing to do with the sink. -/
theorem asCall (line : Nat) (hx : CutsShort sink x) : CutsShort sink (asCall line x) := by
  refine ⟨fun m after hafter => ?_, fun m hm => ?_⟩
  · rw [asCall_apply] at hafter
    split at hafter
    · cases hafter
      exact .of_eq rfl
    · have h := hx.writesOn.afterwards hafter fun _ => rfl
      exact h
  · by_cases hfull : m.maxCallDepth ≤ m.callDepth
    · have hfull' : (m.withSink sink).maxCallDepth ≤ (m.withSink sink).callDepth := hfull
      rw [asCall_apply, asCall_apply, if_pos hfull, if_pos hfull']
      exact .inl rfl
    · have hfull' : ¬ (m.withSink sink).maxCallDepth ≤ (m.withSink sink).callDepth := hfull
      rw [asCall_apply, asCall_apply, if_neg hfull, if_neg hfull']
      exact hx.afterwards { m with callDepth := m.callDepth + 1 } hm (fun _ => rfl) fun _ => rfl

theorem closed (sink : Sink) : Closed fun _ x => CutsShort sink x where
  exhaust := exhaust
  plain := plain
  write := write
  bind := bind
  inEnvironment := inEnvironment
  asCall := asCall

/-- What ends normally with some sink ends in the same way with one that takes everything. -/
theorem of_ok (hx : ∀ sink, CutsShort sink x) {m after : Machine} {a : α}
    (h : x m = .ok a after) :
    x (m.withSink Sink.everything) = .ok a (after.withSink Sink.everything) := by
  -- The run with the sink of `m` is the one that is compared with the run on `full`.
  let full := m.withSink Sink.everything
  have hm : x (full.withSink m.output.accepts) = .ok a after := h
  rcases (hx m.output.accepts).cutShort full rfl with hsame | ⟨failure, cut, hcut, -⟩
  · rw [hm] at hsame
    cases ho : x full with
    | ok b later =>
      rw [ho] at hsame
      cases hsame
      have heverything : later.output.accepts = Sink.everything :=
        ((hx m.output.accepts).writesOn full later (congrArg Outcome.state? ho)).accepts_eq
      rw [Machine.withSink, Machine.withSink, ← heverything]
    | error e later =>
      rw [ho] at hsame
      cases hsame
    | exhausted =>
      rw [ho] at hsame
      cases hsame
  · rw [hm] at hcut
    cases hcut

end CutsShort

end Run

/-! ### Parts of a run -/

namespace Configuration

open Run

/-- The same task on the machine with another sink. -/
def withSink (sink : Sink) (c : Configuration) : Configuration :=
  { c with machine := c.machine.withSink sink }

theorem allCutShort (sink : Sink) (n : Nat) : AllHave (fun _ x => CutsShort sink x) n :=
  (CutsShort.closed sink).allHave n

theorem evaluate_everything {n : Nat} {m after : Machine} {e : Expr} {value : Value}
    (h : e.evaluate n m = .ok value after) :
    e.evaluate n (m.withSink Sink.everything) = .ok value (after.withSink Sink.everything) :=
  CutsShort.of_ok (fun sink => (allCutShort sink n).evaluate e) h

theorem execute_everything {n : Nat} {m after : Machine} {s : Stmt} {completion : Completion}
    (h : s.execute n m = .ok completion after) :
    s.execute n (m.withSink Sink.everything) = .ok completion (after.withSink Sink.everything) :=
  CutsShort.of_ok (fun sink => (allCutShort sink n).execute s) h

/-- A task that is started with some sink is started with one that takes everything: a sink that does not
end the run changes nothing about it. -/
theorem Starts.everything {c d : Configuration} (h : c.Starts d) :
    (c.withSink Sink.everything).Starts (d.withSink Sink.everything) := by
  have hplain {α : Type} {x : Run α} (hx : x.Plain) {m after : Machine} {a : α}
      (ho : x m = .ok a after) :
      x (m.withSink Sink.everything) = .ok a (after.withSink Sink.everything) :=
    CutsShort.of_ok (fun _ => .plain hx) ho
  cases h with
  | inner => exact .inner
  | operand => exact .operand
  | left => exact .left
  | right hleft => exact .right (evaluate_everything hleft)
  | decider => exact .decider
  | undecided hleft hdecides => exact .undecided (evaluate_everything hleft) hdecides
  | assigned => exact .assigned
  | callee => exact .callee
  | arguments hcallee => exact .arguments (evaluate_everything hcallee)
  | call hcallee harguments harity hdepth =>
    exact .call (evaluate_everything hcallee)
      (CutsShort.of_ok (fun sink => (allCutShort sink _).evaluateAll _) harguments) harity hdepth
  | getObject => exact .getObject
  | setObject => exact .setObject
  | setValue hobject => exact .setValue (evaluate_everything hobject)
  | firstArgument => exact .firstArgument
  | otherArguments hfirst => exact .otherArguments (evaluate_everything hfirst)
  | function => exact .function
  | initializer hobject hinit hbound =>
    exact .initializer (hplain (.instantiate _) hobject) hinit (hplain (.bindMethod _ _) hbound)
  | functionBody hframe => exact .functionBody (hplain (.newScope _ _) hframe)
  | expression => exact .expression
  | printed => exact .printed
  | initial => exact .initial
  | block hframe => exact .block (hplain (.newScope _ _) hframe)
  | condition => exact .condition
  | thenBranch hcondition ha => exact .thenBranch (evaluate_everything hcondition) ha
  | elseBranch hcondition ha => exact .elseBranch (evaluate_everything hcondition) ha
  | whileLoop => exact .whileLoop
  | result => exact .result
  | superclass => exact .superclass
  | firstStatement => exact .firstStatement
  | otherStatements hfirst => exact .otherStatements (execute_everything hfirst)
  | loopCondition => exact .loopCondition
  | loopBody hcondition ha => exact .loopBody (evaluate_everything hcondition) ha
  | nextRound hcondition ha hbody =>
    exact .nextRound (evaluate_everything hcondition) ha (execute_everything hbody)
  | firstOfProgram => exact .firstOfProgram
  | restOfProgram hfirst => exact .restOfProgram (execute_everything hfirst)

theorem Reaches.everything {c d : Configuration} (h : c.Reaches d) :
    (c.withSink Sink.everything).Reaches (d.withSink Sink.everything) := by
  induction h with
  | refl => exact .refl
  | tail _ hstep ih => exact .tail ih hstep.everything

end Configuration

/-! ### Refusals -/

namespace Configuration

/-- The task is a statement that prints the expression, and the sink refuses the text of its value or the
line break behind it. -/
def Refuses (c : Configuration) (e : Expr) : Prop :=
  ∃ n m value after, c = ⟨n + 1, m, .statement (.print e)⟩ ∧ e.evaluate n m = .ok value after ∧
    (after.output.takes value.display = false ∨
      (after.output.written value.display).takes "\n" = false)

/-- Only a print statement whose text is refused fails for want of a sink. -/
theorem Raises.refuses_of_outputClosed {c : Configuration} {line : Nat}
    (h : c.Raises ⟨.outputClosed, line⟩) : ∃ e, c.Refuses e ∧ line = e.line?.getD 0 := by
  cases h with
  | print hvalue h => exact ⟨_, ⟨_, _, _, _, rfl, hvalue, h⟩, rfl⟩
  | unary _ h =>
    obtain ⟨type, htype⟩ := UnaryOperator.exists_wrongType h
    cases htype
  | binary _ _ h =>
    obtain ⟨type, htype⟩ := BinaryOperator.exists_wrongType h
    cases htype
  | super h =>
    rcases Run.failure?_superMethod h with h | ⟨-, h⟩
    · cases h
    · simp at h

end Configuration

end Lox
