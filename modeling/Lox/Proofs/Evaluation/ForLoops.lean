import Lox.Proofs.Evaluation.ThinnedRuns
import Lox.Proofs.Grammar.StatementSound

/-!
# What a `for` loop means

The tree of a `for` loop is made of blocks and a `while` loop. It runs like the loop that it stands for:
the scope of the block around body and increment is empty in every round, so that without it the machine
is only thinned.

## Implementation notes

References have the depths that resolution has recorded for the tree. In body and increment these count
the scope of the block, and `Run.twice` counts the scope around it once more in its place.
-/

namespace Lox

open Procedure

namespace Run

/-- Runs `x` with the innermost scope counted twice. No scope is added. -/
def twice {α : Type} (x : Run α) : Run α := do
  let env ← read Machine.environment
  inEnvironment (env.inner env.scope) x

/-- The condition of a `for` loop, which holds if it is left out. -/
noncomputable def forCondition : Option Expr → Run Value
  | some e => e.run
  | none => pure (.bool true)

/-- Runs the body of a `for` loop once and then evaluates the increment, unless the body returns. -/
noncomputable def forRound (increment : Option Expr) (body : Stmt) : Run Completion :=
  match increment with
  | some e => twice (body.run.andThen do
      let _ ← e.run
      return .normal)
  | none => body.run

/-- What `for (initial; condition; increment) body` means: to run the initializer once, in a scope of
its own, and then a round as long as the condition holds. A return and a failure leave the loop at once.
Nothing is put into the scope but the variable of the initializer, so that it is not there without
one. -/
noncomputable def forLoop (initial : Option Stmt) (condition increment : Option Expr) (body : Stmt) :
    Run Completion :=
  let loop := cycle (forCondition condition) (forRound increment body)
  match initial with
  | some s => do
    let scope ← newScope (← read Machine.environment) ∅
    inEnvironment scope (s.run.andThen loop)
  | none => loop

theorem andThen_pure (x : Run Completion) : x.andThen (pure .normal) = x := by
  refine Eq.trans (bind_congr fun completion => ?_) (bind_pure x)
  cases completion <;> rfl

end Run

open Run

open Grammar (forBody forBlock)

theorem Expr.run_forCondition (condition : Option Expr) :
    (Grammar.forCondition condition).run = Run.forCondition condition := by
  cases condition with
  | none => exact Expr.run_literal (.bool true)
  | some e => rfl

/-- The block around body and increment. -/
theorem Stmt.run_forBody (body : Stmt) (e : Expr) :
    (forBody body (some e)).run = (do
      let scope ← newScope (← read Machine.environment) ∅
      inEnvironment scope (body.run.andThen do
        let _ ← e.run
        return .normal)) := by
  rw [forBody, Stmt.run_block, runAll_cons, runAll_cons, runAll_nil, andThen_pure,
    Stmt.run_expression]

/-- The block around initializer and loop. -/
theorem Stmt.run_forBlock (loop s : Stmt) :
    (forBlock loop (some s)).run = (do
      let scope ← newScope (← read Machine.environment) ∅
      inEnvironment scope (s.run.andThen loop.run)) := by
  rw [forBlock, Stmt.run_block, runAll_cons, runAll_cons, runAll_nil, andThen_pure]

section

variable {depths : Depths} {limit : NodeId} {kept : List ScopeId} {names : ScopeNames}
  {m n : Machine} {initial : Option Stmt} {condition increment : Option Expr} {body : Stmt}

/-- A round of the tree runs like a round of the loop. -/
theorem Run.Thins.forRound (h : m.ThinnedIn depths limit kept none names n)
    (hs : (forBody body increment).PlacedBelow depths limit names) (hd : body.declared? = none) :
    Thins depths limit kept m n (forBody body increment).run (Run.forRound increment body)
      (Completion.Thinned depths limit) := by
  cases increment with
  | none => exact h.execute hs nofun
  | some e =>
    obtain ⟨hbody, hrest⟩ := hs.block.cons
    have he := hrest.cons.1.placed
    rw [ScopeNames.after, hd] at he
    rw [Stmt.run_forBody, Run.forRound, twice]
    refine Thins.read ?_
    -- The direct round names the environment that it runs in, as the tree does.
    rw [← pure_bind (n.environment.inner n.environment.scope) fun env => Run.inEnvironment env _]
    refine Thins.bind h (.hide h) fun later env other after last _ h henv => ?_
    refine .inEnvironment h.toThinned henv (.zero names) fun after last h => ?_
    refine .andThen h (h.execute hbody fun _ => hd) fun later after last h => ?_
    exact Thins.bind h (h.evaluate he) fun _ _ _ _ _ _ h _ => .pure h.toThinned .normal

/-- So do all rounds. -/
theorem Run.Thins.forRounds (h : m.ThinnedIn depths limit kept none names n)
    (hs : (Stmt.whileLoop (Grammar.forCondition condition) (forBody body increment)).PlacedBelow
      depths limit names) (hd : body.declared? = none) :
    Thins depths limit kept m n
      (Stmt.whileLoop (Grammar.forCondition condition) (forBody body increment)).run
      (Run.cycle (Run.forCondition condition) (Run.forRound increment body))
      (Completion.Thinned depths limit) := by
  obtain ⟨hcondition, hround, -⟩ := hs.loop
  rw [Stmt.run_whileLoop, ← Expr.run_forCondition]
  exact .cycle h (fun _ _ _ h => h.evaluate hcondition) fun _ _ _ h => .forRound h hround hd

/-- The tree of a `for` loop runs like the loop, on a machine and on the thinned one. -/
theorem Machine.ThinnedIn.forLoop (h : m.ThinnedIn depths limit kept none names n)
    (hs : (Stmt.forLoop initial condition increment body).PlacedBelow depths limit names)
    (hd : body.declared? = none) :
    Thins depths limit kept m n (Stmt.forLoop initial condition increment body).run
      (Run.forLoop initial condition increment body) (Completion.Thinned depths limit) := by
  rw [Stmt.forLoop_eq_forBlock] at hs ⊢
  cases initial with
  | none => exact .forRounds h hs hd
  | some s =>
    obtain ⟨hinitial, hrest⟩ := hs.block.cons
    rw [Stmt.run_forBlock, Run.forLoop]
    refine Thins.read ?_
    refine Thins.bind h (.newScope h.toThinned h.environment .empty)
      fun later env other after last _ h henv => ?_
    refine .inEnvironment h.toThinned henv (.none ([] :: names)) fun after last h => ?_
    refine .andThen h (h.execute hinitial nofun) fun later after last h => ?_
    exact .forRounds ⟨h.toThinned, h.environment, .none _⟩ hrest.cons.1 hd

end

end Lox
