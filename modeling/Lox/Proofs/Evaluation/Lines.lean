import Lox.Proofs.Evaluation.Abiding
import Lox.Proofs.Evaluation.Origins
import Lox.Proofs.Syntax.Lines

/-!
# Lines of runtime errors

The code that a run executes is the code of its program, also where a function is called long after it
was declared. So every line that a run reports is one of the program's lines, except for text that is
refused when a printed expression has no line.

## Main results

* `Configuration.OnLines.starts`: a task whose lines are lines of the program starts only such tasks.
* `Configuration.Raises.onLines`: on which line a task raises a failure.
-/

namespace Lox

open Run

/-- The regime of functions whose lines all have the property `P`. -/
def Regime.within (P : Nat → Prop) : Regime :=
  .ofCode (FunctionDef.Within P) fun _ h => Stmt.WithinAll.ownFunctions h.body

variable {P : Nat → Prop}

theorem Stmt.WithinAll.under {body : List Stmt} (h : Stmt.WithinAll P body) (ho : Stmt.OrdinaryAll body) :
    Stmt.UnderAll (.within P) body :=
  ⟨ho, fun f hf => ⟨ho.ownFunctionsAll f hf, h.ownFunctions f hf⟩⟩

/-- The lines of the task have the property `P`; that of a call is handed over with it. -/
def Task.OnLines (P : Nat → Prop) : Task → Prop
  | .expression e => e.Within P
  | .arguments es => List.Forall₂ (Expr.Alike (.within P)) es es
  | .application _ _ line => P line
  | .entry _ _ line => P line
  | .statement s => s.Within P
  | .statements body => Stmt.WithinAll P body
  | .loop condition body => condition.Within P ∧ body.Within P
  | .program body => Stmt.WithinAll P body

/-- The lines of the task and of all functions in the machine have the property `P`. -/
structure Configuration.OnLines (P : Nat → Prop) (c : Configuration) : Prop where
  under : c.Under (.within P)
  task : c.task.OnLines P

namespace Configuration

variable {c d : Configuration} {failure : Failure}

namespace OnLines

theorem starts (h : c.OnLines P) (hcd : c.Starts d) : d.OnLines P := by
  refine ⟨h.under.starts hcd, ?_⟩
  obtain ⟨hunder, htask⟩ := h
  cases hcd with
  | inner => cases htask with | grouping hinner => exact hinner
  | operand => cases htask with | unary hoperand => exact hoperand
  | left => cases htask with | binary hleft => exact hleft
  | right => cases htask with | binary _ hright => exact hright
  | decider => cases htask with | logical hleft => exact hleft
  | undecided => cases htask with | logical _ hright => exact hright
  | assigned => cases htask with | assign _ hvalue => exact hvalue
  | callee => cases htask with | call hcallee => exact hcallee
  | arguments => cases htask with | call _ harguments => exact harguments
  | call => cases htask with | call _ _ hline => exact hline
  | getObject => cases htask with | get hobject => exact hobject
  | setObject => cases htask with | set hobject => exact hobject
  | setValue => cases htask with | set _ _ hvalue => exact hvalue
  | firstArgument => cases htask with | cons hfirst => exact hfirst
  | otherArguments => cases htask with | cons _ hrest => exact hrest
  | function | initializer => exact htask
  | functionBody =>
    -- The body comes from the heap, where the regime says of it what is said of the task.
    exact hunder.2.1.2.body
  | expression => cases htask with | expression hvalue => exact hvalue
  | printed => cases htask with | print hvalue => exact hvalue
  | initial =>
    cases htask with
    | var _ hinitial => cases hinitial with | some hvalue => exact hvalue
  | block => cases htask with | block hbody => exact hbody
  | condition => cases htask with | conditional hcondition => exact hcondition
  | thenBranch => cases htask with | conditional _ hthen => exact hthen
  | elseBranch =>
    cases htask with
    | conditional _ _ helse => cases helse with | some helse => exact helse
  | whileLoop => cases htask with | whileLoop hcondition hbody => exact ⟨hcondition, hbody⟩
  | result =>
    cases htask with
    | ret _ hvalue => cases hvalue with | some hvalue => exact hvalue
  | superclass =>
    cases htask with
    | classDef _ hsuper => cases hsuper with | some htarget => exact .reference htarget
  | firstStatement | firstOfProgram => cases htask with | cons hfirst => exact hfirst
  | otherStatements | restOfProgram => cases htask with | cons _ hrest => exact hrest
  | loopCondition => exact htask.1
  | loopBody => exact htask.2
  | nextRound => exact htask

theorem reaches (h : c.OnLines P) (hcd : c.Reaches d) : d.OnLines P := by
  induction hcd with
  | refl => exact h
  | tail _ hstep ih => exact ih.starts hstep

end OnLines

/-- A failure is on a line of the task that raises it, unless text is refused that comes of an expression
without a line. -/
theorem Raises.onLines (h : c.Raises failure) (hc : c.task.OnLines P) :
    P failure.line ∨ ∃ e, c.task = .statement (.print e) ∧ e.Lineless ∧ failure = ⟨.outputClosed, 0⟩ := by
  cases h with
  | unary => cases hc with | unary _ hline => exact .inl hline
  | binary => cases hc with | binary _ _ hline => exact .inl hline
  | reference => cases hc with | reference htarget => exact .inl htarget.name.line
  | assign => cases hc with | assign htarget => exact .inl htarget.name.line
  | notCallable | arity | tooDeep => cases hc with | call _ _ hline => exact .inl hline
  | property | getOther => cases hc with | get _ hname => exact .inl hname.line
  | setOther => cases hc with | set _ hname => exact .inl hname.line
  | this => cases hc with | this _ hline => exact .inl hline
  | super hfailure =>
    cases hc with
    | super _ hline hmethod =>
      rcases failure?_superMethod hfailure with rfl | ⟨rfl, -⟩
      · exact .inl hmethod.line
      · exact .inl hline
  | native | notApplicable | instanceLost => exact .inl hc
  | @print n m e =>
    cases hc with
    | print hvalue =>
      cases hline : e.line? with
      | some line => exact .inl (Expr.Within.line? hvalue hline)
      | none => exact .inr ⟨e, rfl, Expr.lineless_of_line? hline, rfl⟩
  | superclass =>
    cases hc with
    | classDef _ hsuper => cases hsuper with | some htarget => exact .inl htarget.name.line

end Configuration

end Lox
