import Lox.Proofs.Evaluation.Lines
import Lox.Proofs.Grammar.Lines
import Lox.Proofs.Resolution.Lines
import Lox.Proofs.Session.Regimes
import Lox.Proofs.Session.Sinks
import Lox.Proofs.Token.Lines

/-!
# Lines of diagnostics

In a new session whatever a text is turned down for or fails with is reported on a line of the text. Only
the failure to print an expression that has no line of its own is on line 0.
-/

namespace Lox

open Procedure

namespace Session

open Source (HasLine)

variable {s t : Session} {bound : Nat} {source : String} {c : Configuration}

/-- The program that a text is read as is on lines of the text. -/
theorem withinAll_of_ofSource {firstId : NodeId} {statements : List Stmt}
    (h : (Reading.ofSource source firstId).result = .ok statements) :
    Stmt.WithinAll (HasLine source) statements :=
  (Reading.within_ofSource (Scan.hasLine_tokens source) (Scan.hasLine_faults source) firstId).1
    statements h

/-- What a text is turned down for is on a line of it: the scanner and the parser report lines of tokens,
and the resolver lines of the tree. -/
theorem hasLine_of_rejected {faults : List Diagnostic}
    (h : run bound source s = .error (.rejected faults) t) :
    ∀ fault ∈ faults, HasLine source fault.line := by
  cases hread : (Reading.ofSource source s.nextId).result with
  | error found =>
    rw [run_of_unread bound hread] at h
    cases h
    exact (Reading.within_ofSource (Scan.hasLine_tokens source) (Scan.hasLine_faults source)
      s.nextId).2 faults hread
  | ok statements =>
    cases hresolve : resolve statements with
    | error found =>
      rw [run_of_unresolved bound hread hresolve] at h
      cases h
      exact within_of_resolve (ordinary_of_ofSource hread) (withinAll_of_ofSource hread) hresolve
    | ok found =>
      rw [run_of_resolve bound hread hresolve] at h
      obtain ⟨failure, he, -⟩ := failed_of_onMachine _ _ h
      cases he

/-- Where no function is in the machine that comes from elsewhere, every part of the run of a text is on
lines of the text. -/
theorem onLines_of_does (hs : s.machine.Under (.within (HasLine source)))
    (h : s.Does bound source c) : c.OnLines (HasLine source) := by
  obtain ⟨statements, found, hread, -, hreach⟩ := h
  have hwithin := withinAll_of_ofSource hread
  have hprogram : Configuration.OnLines (HasLine source)
      ⟨bound, { s.machine with depths := s.machine.depths.insertMany found }, .program statements⟩ :=
    ⟨⟨hs.of_eq rfl rfl rfl, hwithin.under (ordinary_of_ofSource hread)⟩, hwithin⟩
  exact hprogram.reaches hreach

/-- Every diagnostic points into the source. A text that is run in a new session is turned down for faults
on lines of the text, and it fails on a line of the text. The only exception is the failure to print a
literal, possibly in parentheses or as the first operand of `and` and `or`, which is on line 0. -/
theorem diagnostics_have_lines (now : Number) (output : Output) (bound : Nat) (source : String) :
    (∀ faults t, run bound source ((start now).withOutput output) = .error (.rejected faults) t →
      ∀ fault ∈ faults, HasLine source fault.line) ∧
    ∀ failure t, run bound source ((start now).withOutput output) = .error (.failed failure) t →
      (HasLine source failure.line ∧ (failure.fault = .outputClosed →
        ∃ c e, ((start now).withOutput output).Does bound source c ∧ c.Refuses e ∧ ¬ e.Lineless)) ∨
      (failure = ⟨.outputClosed, 0⟩ ∧
        ∃ c e, ((start now).withOutput output).Does bound source c ∧ c.Refuses e ∧ e.Lineless) := by
  refine ⟨fun faults t h => hasLine_of_rejected h, fun failure t h => ?_⟩
  obtain ⟨c, hdoes, hraises⟩ := exists_origin h
  have honLines := onLines_of_does (under_start _ now output) hdoes
  obtain ⟨fault, line⟩ := failure
  by_cases hfault : fault = .outputClosed
  · -- Only a print statement fails for want of a sink, so the printed expression decides.
    subst hfault
    obtain ⟨e, hrefuses, rfl⟩ := hraises.refuses_of_outputClosed
    cases hline : e.line? with
    | none =>
      exact .inr ⟨rfl, c, e, hdoes, hrefuses, Expr.lineless_of_line? hline⟩
    | some line =>
      have hhas : HasLine source line := by
        obtain ⟨n, m, value, after, rfl, -⟩ := hrefuses
        cases honLines.task with
        | print he => exact Expr.Within.line? he hline
      refine .inl ⟨hhas, fun _ => ⟨c, e, hdoes, hrefuses, fun hlineless => ?_⟩⟩
      rw [hlineless.line?_eq] at hline
      cases hline
  · rcases hraises.onLines honLines.task with hhas | ⟨e, -, -, hfailure⟩
    · exact .inl ⟨hhas, fun hclosed => absurd hclosed hfault⟩
    · cases hfailure
      exact absurd rfl hfault

/-- A text that fails on its second line, in a function that is called on its third. -/
def negation : String := "fun f()\n{ -nil; }\nf();"

/-- The call fails on the line of the operator. A literal has no line to fail on, where nothing can be
printed. -/
theorem diagnostics_have_lines_negation :
    (∃ t, run 12 negation ((start ⟨0⟩).withOutput (.limited 0)) =
        .error (.failed ⟨.wrongType .operandNotNumber, 2⟩) t ∧ HasLine negation 2) ∧
      ∃ t, run 3 "\nprint nil;" ((start ⟨0⟩).withOutput (.limited 0)) =
          .error (.failed ⟨.outputClosed, 0⟩) t ∧
        ∃ c e, ((start ⟨0⟩).withOutput (.limited 0)).Does 3 "\nprint nil;" c ∧ c.Refuses e ∧
          e.Lineless := by
  have hnegation : (run 12 negation ((start ⟨0⟩).withOutput (.limited 0))).failure? =
      some (.failed ⟨.wrongType .operandNotNumber, 2⟩) := by
    let statements : List Stmt :=
      [.function ⟨⟨"f", 1⟩, [], [.expression (.unary .negate (.literal .nil) 2)]⟩,
        .expression (.call (.reference ⟨0, ⟨"f", 3⟩⟩) [] 3)]
    have hread : (Reading.ofSource negation 0).result = .ok statements := by decide +kernel
    have hresolve : resolve statements = .ok [] := by decide +kernel
    rw [run_of_resolve_nil 12 hread hresolve]
    generalize (Reading.ofSource negation ((start ⟨0⟩).withOutput (.limited 0)).nextId).nextId = k
    cbv
  have hnil : (run 3 "\nprint nil;" ((start ⟨0⟩).withOutput (.limited 0))).failure? =
      some (.failed ⟨.outputClosed, 0⟩) := by
    have hread : (Reading.ofSource "\nprint nil;" 0).result = .ok [.print (.literal .nil)] := by
      decide +kernel
    have hresolve : resolve [.print (.literal .nil)] = .ok [] := by decide +kernel
    rw [run_of_resolve_nil 3 hread hresolve]
    generalize (Reading.ofSource "\nprint nil;" ((start ⟨0⟩).withOutput (.limited 0)).nextId).nextId = k
    cbv
  obtain ⟨t, hfails⟩ := Outcome.failure?_eq_some.1 hnegation
  obtain ⟨u, hcloses⟩ := Outcome.failure?_eq_some.1 hnil
  refine ⟨⟨t, hfails, ?_⟩, u, hcloses, ?_⟩
  · rcases (diagnostics_have_lines ⟨0⟩ (.limited 0) 12 negation).2 _ t hfails with
      ⟨hline, -⟩ | ⟨h, -⟩
    · exact hline
    · cases h
  · rcases (diagnostics_have_lines ⟨0⟩ (.limited 0) 3 "\nprint nil;").2 _ u hcloses with
      ⟨hline, -⟩ | ⟨-, h⟩
    · exact absurd hline.1 (Nat.not_succ_le_zero 0)
    · exact h

end Session

end Lox
