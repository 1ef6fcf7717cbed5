import Lox.Proofs.Evaluation.Silence
import Lox.Proofs.Grammar.Expressions
import Lox.Proofs.Resolution.Addresses
import Lox.Proofs.Session.Regimes

/-!
# Lone expressions in a session

Evaluating an expression in a new session comes to the same as running a program that prints it. One is
read up to the end of the source and not resolved, the other is read up to a semicolon, resolved and run
as a statement.
-/

namespace Lox

open Grammar Procedure

/-! ### Resolution -/

/-- The expression uses neither `this` nor `super`. -/
abbrev Expr.Freestanding (e : Expr) : Prop := ∀ use ∈ e.uses [], use.kind ≠ .this ∧ use.kind ≠ .super

namespace Resolution

variable {r : Resolution}

theorem locate_global (hr : r.scopes = []) (id : NodeId) (name : String) : r.locate id name = r := by
  simp [locate, depth?, hr]

mutual

/-- Outside of all scopes there is nothing to be resolved and no rule but those of `this` and `super`. -/
theorem expr_global (hr : r.scopes = []) (e : Expr) (h : e.Freestanding) : r.expr e = r := by
  cases e with
  | literal => rfl
  | unary _ operand => exact expr_global hr operand h
  | binary left _ right | logical left _ right =>
    obtain ⟨hleft, hright⟩ := List.forall_mem_append.1 h
    rw [Resolution.expr, expr_global hr left hleft, expr_global hr right hright]
  | grouping inner => exact expr_global hr inner h
  | reference target =>
    have hnone : r.isInitializing target.name.text = false := by simp [isInitializing, hr]
    rw [Resolution.expr, reference, hnone]
    exact locate_global hr _ _
  | assign target value =>
    rw [Resolution.expr, expr_global hr value (List.forall_mem_append.1 h).1]
    exact locate_global hr _ _
  | call callee arguments =>
    obtain ⟨hcallee, harguments⟩ := List.forall_mem_append.1 h
    rw [Resolution.expr, expr_global hr callee hcallee, exprs_global hr arguments harguments]
  | get object => exact expr_global hr object h
  | set object _ value =>
    obtain ⟨hvalue, hobject⟩ := List.forall_mem_append.1 h
    rw [Resolution.expr, expr_global hr value hvalue, expr_global hr object hobject]
  | this => exact absurd rfl (h _ (List.mem_singleton.2 rfl)).1
  | super => exact absurd rfl (h _ (List.mem_singleton.2 rfl)).2

theorem exprs_global (hr : r.scopes = []) (es : List Expr)
    (h : ∀ use ∈ Expr.usesAll [] es, use.kind ≠ .this ∧ use.kind ≠ .super) : r.exprs es = r := by
  cases es with
  | nil => rfl
  | cons e rest =>
    obtain ⟨he, hrest⟩ := List.forall_mem_append.1 h
    rw [Resolution.exprs, expr_global hr e he, exprs_global hr rest hrest]

end

end Resolution

theorem resolve_print {e : Expr} (h : e.Freestanding) : resolve [.print e] = .ok [] := by
  have hvisit : Resolution.start.stmts [.print e] = Resolution.start :=
    Resolution.expr_global rfl e h
  rw [resolve, hvisit]
  rfl

/-- No name in a statement that prints is local. -/
theorem found_print {e : Expr} {found : List (NodeId × Nat)} (h : resolve [.print e] = .ok found)
    (ho : e.Ordinary) : found = [] := by
  rw [entries_of_resolve h ⟨ho, trivial⟩, List.filterMap_eq_nil_iff]
  intro use hmem
  rw [Stmt.usesAll, Stmt.usesAll, List.append_nil, Stmt.uses] at hmem
  rw [Use.entry?, e.scopes_of_mem_uses use hmem]
  rfl

/-! ### Printing -/

section Print

variable {bound : Nat} {e : Expr} {m after : Machine}

/-- A program that prints an expression evaluates it and writes its value. -/
theorem runProgram_print_of_ok {value : Value} (h : e.evaluate bound m = .ok value after)
    (hout : after.output.accepts = Sink.everything) :
    runProgram (bound + 1) [.print e] m = .ok () { after with
      output := { after.output with text := after.output.text ++ value.display ++ "\n" } } := by
  let line := e.line?.getD 0
  have hfirst := Run.write_of_takes line (Output.takes_of_everything hout value.display)
  let between : Output := { after.output with text := after.output.text ++ value.display }
  have hbetween : between.accepts = Sink.everything := hout
  have hsecond := Run.write_of_takes (m := { after with output := between }) line
    (Output.takes_of_everything hbetween "\n")
  have hprint : (Stmt.print e).execute (bound + 1) m = .ok .normal { after with
      output := { after.output with text := after.output.text ++ value.display ++ "\n" } } := by
    rw [Stmt.execute, bind_apply_of_ok h, bind_apply_of_ok hfirst, bind_apply_of_ok hsecond]
    rfl
  rw [runProgram, bind_apply_of_ok hprint]
  rfl

theorem runProgram_print_of_error {failure : Failure} (h : e.evaluate bound m = .error failure after) :
    runProgram (bound + 1) [.print e] m = .error failure after := by
  have hprint : (Stmt.print e).execute (bound + 1) m = .error failure after := by
    rw [Stmt.execute, bind_apply_of_error h]
  rw [runProgram, bind_apply_of_error hprint]

theorem runProgram_print_of_exhausted (h : e.evaluate bound m = .exhausted) :
    runProgram (bound + 1) [.print e] m = .exhausted := by
  have hprint : (Stmt.print e).execute (bound + 1) m = .exhausted := by
    rw [Stmt.execute, bind_apply_of_exhausted h]
  rw [runProgram, bind_apply_of_exhausted hprint]

end Print

namespace Session

variable {source : String} {j k : NodeId} {e f : Expr}

/-- A new session in which nodes are numbered from `k` on. -/
def startFrom (now : Number) (k : NodeId) : Session := { start now with nextId := k }

/-- What is read of a lone expression and of the program that prints it. -/
structure Pair (source : String) (j k : NodeId) (e f : Expr) : Prop where
  expression : (Reading.expressionOfSource source j).result = .ok e
  program : (Reading.ofSource (printing source) k).result = .ok [.print f]
  alike : f.Alike .upToNodes e
  freestanding : e.Freestanding

namespace Pair

theorem ordinary (h : Pair source j k e f) : e.Ordinary :=
  Reading.ordinary_of_expressionOfSource h.expression

theorem resolve (h : Pair source j k e f) : resolve [.print f] = .ok [] := by
  have hlike : StmtsAlike .upToNodes [.print f] [.print e] := .cons (.print h.alike) .nil
  obtain ⟨found, hfound⟩ := (resolves_congr hlike).2 ⟨[], resolve_print h.freestanding⟩
  rwa [found_print hfound (ordinary_of_ofSource h.program).1] at hfound

/-- The program that prints the expression which was read alone runs like the one that was read. -/
theorem agree (h : Pair source j k e f) (now : Number) (bound : Nat) :
    Agree (fun a b m n => a = b ∧ m.output = n.output) (runProgram bound [.print e])
      (runProgram bound [.print f]) (start now).machine (start now).machine
      fun _ _ m n => m.output = n.output := by
  have hstart := Alike.start now .unlimited
  obtain ⟨w, hmachine⟩ := hstart.machine
  let high := (Reading.expressionOfSource source j).nextId
  let limit := (Reading.ofSource (printing source) k).nextId
  have hready : Machine.AlikeByDepth .same limit high w (start now).machine (start now).machine :=
    hmachine.record (fun _ _ h => h) (Nat.zero_le limit) (Nat.zero_le high) (fun _ _ => rfl) fun _ _ => rfl
  have hlike : StmtsAlike .upToNodes [.print f] [.print e] := .cons (.print h.alike) .nil
  have hnumbered := (Reading.fresh_expressionOfSource source j).numbered e h.expression
  have hnumbered' := (program_of_ofSource h.program).2
  have hnodes : Stmt.nodesAll [.print e] = e.nodes := List.append_nil _
  have hplaced : Stmt.PlacedAll ((start now).machine.depths[·]?) [] [.print e] :=
    (placed_of_resolve (resolve_print h.freestanding) ⟨h.ordinary, trivial⟩ (hnodes ▸ hnumbered.nodup)
      (start now).machine.depths fun id _ => hstart.left id (Nat.zero_le id)).1
  have hplaced' : Stmt.PlacedAll ((start now).machine.depths[·]?) [] [.print f] :=
    (placed_of_resolve h.resolve (ordinary_of_ofSource h.program) hnumbered'.nodup
      (start now).machine.depths fun id _ => hstart.left id (Nat.zero_le id)).1
  have hagree := hready.runProgram rfl (fun _ _ h => h) hlike hplaced' hplaced
    (fun id hid => (hnumbered'.mem id hid).2) (fun id hid => (hnumbered.mem id (hnodes ▸ hid)).2) bound
  refine hagree.symm.imp ?_ ?_
  · rintro _ _ m n hfollow
    obtain ⟨w', halike⟩ := hfollow.alike
    exact halike.output.symm
  · rintro ⟨fault, line⟩ ⟨fault', line'⟩ m n ⟨rfl, rfl, hfollow⟩
    obtain ⟨w', halike⟩ := hfollow.alike
    exact ⟨rfl, halike.output.symm⟩

theorem evaluate_eq (h : Pair source j k e f) (now : Number) (bound : Nat) :
    evaluate bound source (startFrom now j) = onMachine (e.evaluate bound)
      ⟨(start now).machine, (Reading.expressionOfSource source j).nextId⟩ := by
  simp only [evaluate, bind_apply, accept, startFrom, h.expression]

theorem run_eq (h : Pair source j k e f) (now : Number) (bound : Nat) :
    run bound (printing source) (startFrom now k) = onMachine (runProgram bound [.print f])
      ⟨(start now).machine, (Reading.ofSource (printing source) k).nextId⟩ :=
  run_of_resolve_nil bound h.program h.resolve

/-- Evaluating the expression agrees with running the program that prints it, and prints nothing. -/
theorem evaluate_agrees (h : Pair source j k e f) (now : Number) (bound : Nat) :
    Agree (fun a b _ t => a = b ∧ (∃ failure, a = .failed failure) ∧ t.printed = "")
      (evaluate bound source) (run (bound + 1) (printing source)) (startFrom now j) (startFrom now k)
      fun value _ _ t => t.printed = value.display ++ "\n" := by
  have hunder : (start now).machine.Under .codeless := under_start .codeless now .unlimited
  have hsilent := (Run.silentAt bound).evaluate e hunder h.ordinary
  have hagree := h.agree now (bound + 1)
  have hevaluate := h.evaluate_eq now bound
  have hrun := h.run_eq now (bound + 1)
  unfold onMachine at hevaluate hrun
  cases he : e.evaluate bound (start now).machine with
  | ok value after =>
    have hout : after.output = .unlimited := hsilent after (by rw [he]; rfl)
    have hprint := runProgram_print_of_ok he (by rw [hout]; rfl)
    rcases hagree.cases with ⟨_, _, m, n, hx, hy, hsame⟩ | ⟨_, _, _, _, hx, -⟩ | ⟨hx, -⟩
    · rw [hprint] at hx
      cases hx
      refine .of_ok (by rw [hevaluate, he]) (by rw [hrun, hy]) ?_
      show n.output.text = _
      rw [← hsame, hout]
      show "" ++ value.display ++ "\n" = _
      rw [String.empty_append]
    · cases hprint.symm.trans hx
    · cases hprint.symm.trans hx
  | error failure after =>
    have hout : after.output = .unlimited := hsilent after (by rw [he]; rfl)
    have hprint := runProgram_print_of_error he
    rcases hagree.cases with ⟨_, _, _, _, hx, -⟩ | ⟨a, b, m, n, hx, hy, rfl, hsame⟩ | ⟨hx, -⟩
    · cases hprint.symm.trans hx
    · rw [hprint] at hx
      cases hx
      refine .of_error (by rw [hevaluate, he]) (by rw [hrun, hy]) ⟨rfl, ⟨failure, rfl⟩, ?_⟩
      show n.output.text = _
      rw [← hsame, hout]
      rfl
    · cases hprint.symm.trans hx
  | exhausted =>
    have hprint := runProgram_print_of_exhausted he
    rcases hagree.cases with ⟨_, _, _, _, hx, -⟩ | ⟨_, _, _, _, hx, -⟩ | ⟨-, hy⟩
    · cases hprint.symm.trans hx
    · cases hprint.symm.trans hx
    · exact .of_exhausted (by rw [hevaluate, he]) (by rw [hrun, hy])

end Pair

/-- What is read as an expression is read as the value of a program that prints it. -/
theorem exists_pair (h : (Reading.expressionOfSource source j).result = .ok e) (hfree : e.Freestanding)
    (k : NodeId) : ∃ f, Pair source j k e f := by
  obtain ⟨body, hfinds, hphrase⟩ := Reading.finds_of_expressionOfSource h
  obtain ⟨line, hprinting⟩ := hfinds.printing
  obtain ⟨read, hread, hlike⟩ := ofSource_of_finds hprinting (hphrase.printed rfl rfl) k
  cases hlike with
  | cons hs hrest =>
    cases hrest
    cases hs with
    | print hlike => exact ⟨_, h, hread, hlike, hfree⟩

/-- What is not read as an expression is turned down in a program that prints it, too, if there is no
semicolon in it. -/
theorem rejects_printing (hscan : (Scan.ofText source).faults = []) {faults : List Diagnostic}
    (h : (Reading.expressionOfSource source j).result = .error faults)
    (hplain : ∀ t ∈ (Scan.ofText source).tokens, t.kind ≠ .symbol .semicolon) (s : Session) (bound : Nat) :
    s.Rejects bound (printing source) := by
  rcases run_cases bound (printing source) s with hrejects | ⟨statements, t, hread, -⟩
  · exact hrejects
  · obtain ⟨body, line, htokens, -⟩ := Scan.tokens_eq_append_end source
    have hfinds : Scan.Finds source body := ⟨line, htokens, hscan⟩
    obtain ⟨tokens, ⟨last, htokens', -⟩, hprogram⟩ := finds_of_ofSource hread
    obtain ⟨semicolonLine, last', hprinted, -⟩ := hfinds.printing
    have hsame := htokens'.symm.trans hprinted
    obtain rfl : tokens = .ofPrint :: body ++ [.ofSemicolon semicolonLine] :=
      (List.append_inj' hsame rfl).1
    obtain ⟨e, hphrase⟩ := phrase_of_printed hprogram rfl fun t ht =>
      hplain t (htokens ▸ List.mem_append_left _ ht)
    obtain ⟨read, hread, -⟩ := Reading.expressionOfSource_of_finds hfinds hphrase j
    rw [hread] at h
    cases h

/-- Evaluating and running agree on lone expressions. For every text that is scanned without a fault and
read as an expression without `this` and `super`, the program that prints the text is read as one print
statement of the same expression up to the numbers of nodes, and resolved; and in new sessions, wherever
the numbering starts, evaluating the expression gives a value if and only if the program ends normally
and prints the text of the value, and it fails if and only if the program fails in the same way and
prints nothing. A print statement takes one call more. If the text is not read as an expression and has
no semicolon, the program is turned down. -/
theorem evaluate_agrees_with_print {source : String} (hscan : (Scan.ofText source).faults = [])
    (now : Number) (j k : NodeId) :
    (∀ e, (Reading.expressionOfSource source j).result = .ok e → e.Freestanding →
      (∃ f, (Reading.ofSource (printing source) k).result = .ok [.print f] ∧ f.Alike .upToNodes e ∧
        resolve [.print f] = .ok []) ∧
      ∀ bound,
        (∀ text, (∃ value s, evaluate bound source (startFrom now j) = .ok value s ∧
            text = value.display ++ "\n") ↔
          ∃ t, run (bound + 1) (printing source) (startFrom now k) = .ok () t ∧ t.printed = text) ∧
        ∀ failure, (∃ s, evaluate bound source (startFrom now j) = .error (.failed failure) s) ↔
          ∃ t, run (bound + 1) (printing source) (startFrom now k) = .error (.failed failure) t ∧
            t.printed = "") ∧
    ∀ faults, (Reading.expressionOfSource source j).result = .error faults →
      (∀ t ∈ (Scan.ofText source).tokens, t.kind ≠ .symbol .semicolon) →
      ∀ bound, (startFrom now k).Rejects bound (printing source) := by
  refine ⟨fun e hread hfree => ?_, fun faults hread hplain => rejects_printing hscan hread hplain _⟩
  obtain ⟨f, hpair⟩ := exists_pair hread hfree k
  refine ⟨⟨f, hpair.program, hpair.alike, hpair.resolve⟩, fun bound => ?_⟩
  rcases (hpair.evaluate_agrees now bound).cases with ⟨value, _, s, t, hx, hy, hprinted⟩ |
    ⟨error, _, s, t, hx, hy, rfl, ⟨failure, rfl⟩, hprinted⟩ | ⟨hx, hy⟩
  · rw [hx, hy]
    refine ⟨fun text => ⟨?_, ?_⟩, fun failure => ⟨?_, ?_⟩⟩
    · rintro ⟨_, _, ⟨⟩, rfl⟩
      exact ⟨t, rfl, hprinted⟩
    · rintro ⟨_, ⟨⟩, rfl⟩
      exact ⟨value, s, rfl, hprinted⟩
    · rintro ⟨_, ⟨⟩⟩
    · rintro ⟨_, ⟨⟩, -⟩
  · rw [hx, hy]
    refine ⟨fun text => ⟨?_, ?_⟩, fun other => ⟨?_, ?_⟩⟩
    · rintro ⟨_, _, ⟨⟩, -⟩
    · rintro ⟨_, ⟨⟩, -⟩
    · rintro ⟨_, ⟨⟩⟩
      exact ⟨t, rfl, hprinted⟩
    · rintro ⟨_, ⟨⟩, -⟩
      exact ⟨s, rfl⟩
  · rw [hx, hy]
    refine ⟨fun text => ⟨?_, ?_⟩, fun failure => ⟨?_, ?_⟩⟩
    · rintro ⟨_, _, ⟨⟩, -⟩
    · rintro ⟨_, ⟨⟩, -⟩
    · rintro ⟨_, ⟨⟩⟩
    · rintro ⟨_, ⟨⟩, -⟩

/-- A product whose operand is no number, and a sum without its second operand. -/
theorem evaluate_agrees_with_print_product :
    (Scan.ofText "nil * 2").faults = [] ∧
    (∃ e, (Reading.expressionOfSource "nil * 2" 0).result = .ok e ∧ e.Freestanding ∧
      ∀ bound failure, (∃ s, evaluate bound "nil * 2" (startFrom ⟨0⟩ 0) = .error (.failed failure) s) ↔
        ∃ t, run (bound + 1) (printing "nil * 2") (startFrom ⟨0⟩ 0) = .error (.failed failure) t ∧
          t.printed = "") ∧
    (Scan.ofText "1 +").faults = [] ∧
    ∀ bound, (startFrom ⟨0⟩ 0).Rejects bound (printing "1 +") := by
  have hscan : (Scan.ofText "nil * 2").faults = [] := by decide +kernel
  have hscan' : (Scan.ofText "1 +").faults = [] := by decide +kernel
  have hfree : ((Reading.expressionOfSource "nil * 2" 0).result.toOption.map fun e =>
      decide (∀ use ∈ e.uses [], use.kind ≠ .this ∧ use.kind ≠ .super)) = some true := by decide +kernel
  have hplain : ∀ t ∈ (Scan.ofText "1 +").tokens, t.kind ≠ .symbol .semicolon := by decide +kernel
  have hfaults : ((Reading.expressionOfSource "1 +" 0).result.toOption).isNone = true := by
    decide +kernel
  refine ⟨hscan, ?_, hscan', ?_⟩
  · cases hread : (Reading.expressionOfSource "nil * 2" 0).result with
    | error faults =>
      rw [hread] at hfree
      cases hfree
    | ok e =>
      rw [hread] at hfree
      have hfree : e.Freestanding := of_decide_eq_true (Option.some.inj hfree)
      have hagrees := ((evaluate_agrees_with_print hscan ⟨0⟩ 0 0).1 e hread hfree).2
      exact ⟨e, rfl, hfree, fun bound => (hagrees bound).2⟩
  · cases hread : (Reading.expressionOfSource "1 +" 0).result with
    | ok e =>
      rw [hread] at hfaults
      cases hfaults
    | error faults => exact (evaluate_agrees_with_print hscan' ⟨0⟩ 0 0).2 faults hread hplain

end Session

end Lox
