import Lox.Proofs.Session.Process
import Lox.Proofs.Syntax.Equality

/-!
# Node numbers never collide

In every process the nodes of all trees that reading has returned have numbers of their own, and the
functions that there are in a session, between two texts and at every moment of a run, come from
these trees. So the depths of a program are recorded for nodes without any, and what is recorded for
a node stays.
-/

namespace Lox

open Run

/-! ### The table of depths in a run -/

/-- Resolution records depths for nodes of its program. -/
theorem mem_nodes_of_resolve {statements : List Stmt} {found : List (NodeId × Nat)}
    (h : resolve statements = .ok found) (ho : Stmt.OrdinaryAll statements) :
    ∀ entry ∈ found, entry.1 ∈ Stmt.nodesAll statements := by
  obtain ⟨-, recorded, -, hdepths, -, hmem, -⟩ :=
    Resolution.stmts_visited Resolution.start_around Resolution.start_settled statements ho
  simp only [resolve] at h
  split at h
  · cases h
    intro entry hentry
    rw [List.mem_reverse, hdepths] at hentry
    exact (List.mem_append.1 hentry).elim (hmem entry) fun hstart => by cases hstart
  · cases h

namespace Configuration

/-- A task that is started finds the same table of depths. -/
theorem Starts.depths_eq {c d : Configuration} (h : c.Starts d) :
    d.machine.depths = c.machine.depths := by
  obtain ⟨between, hrestored, henters⟩ := h.between fun e _ => endsIn_restored e
  cases henters <;> exact hrestored.depths

theorem Reaches.depths_eq {c d : Configuration} (h : c.Reaches d) :
    d.machine.depths = c.machine.depths := by
  induction h with
  | refl => rfl
  | tail _ hstep ih => exact hstep.depths_eq.trans ih

end Configuration

/-! ### The main theorem -/

namespace Process

variable {p q : Process}

/-- What a run of an accepted program in a session of the process finds. -/
theorem Sound.run_distinct (h : p.Sound) {m : Machine} (hm : m ∈ p.machines) {source : String}
    {statements : List Stmt} {found : List (NodeId × Nat)}
    (hread : (Reading.ofSource source p.nextId).result = .ok statements)
    (hresolve : resolve statements = .ok found) :
    Tree.Distinct (p.trees ++ [Tree.program statements]) ∧
      (∀ entry ∈ found, m.depths[entry.1]? = none) ∧
      ∀ bound c, Session.Does ⟨m, p.nextId⟩ bound source c →
        c.machine.FunctionsIn ((p.trees ++ [Tree.program statements]).flatMap Tree.functions) ∧
        Records p.trees m c.machine := by
  have hprepared := Session.prepared_of_resolve (s := ⟨m, p.nextId⟩) hread hresolve
  have htokens := Sound.ofTokens_of_ofSource hread
  refine ⟨?_, fun entry hentry => ?_, fun bound c hc => ⟨?_, ?_⟩⟩
  · have hnodes : ∀ ss, (Tree.program ss).nodes = Stmt.nodesAll ss := fun _ => rfl
    have hnodup := (h.numbered_took
      (Reading.fresh_ofTokens (Scan.ofText source).tokens p.nextId) hnodes).1
    rw [Process.took, htokens] at hnodup
    exact Tree.distinct_of_nodup hnodup
  · have hid := mem_nodes_of_resolve hresolve hprepared.ordinary entry hentry
    exact h.unnumbered m hm entry.1 (hprepared.numbered.mem entry.1 hid).1
  · have hunder := Session.under_of_does (s := ⟨m, p.nextId⟩)
      ((h.under m hm).append [Tree.program statements] (h.passive m hm))
      (fun others hothers => ?_) hc
    · exact hunder.machine.functionsIn
    · obtain rfl : others = statements := Except.ok.inj (hothers.symm.trans hread)
      exact Regime.underAll_ofTrees hprepared.ordinary (List.mem_append_right _ (.head _))
  · intro tree htree id hid
    obtain ⟨others, more, hothers, hmore, hreach⟩ := hc
    obtain rfl : others = statements := Except.ok.inj (hothers.symm.trans hread)
    obtain rfl : more = found := Except.ok.inj (hmore.symm.trans hresolve)
    rw [hreach.depths_eq]
    exact hprepared.depths_of_lt (h.unnumbered m hm)
      (h.lt id (List.mem_flatMap.2 ⟨tree, htree, hid⟩))

/-- Node identities never collide. In every process, whatever has been read, run and evaluated in it
and whatever of it failed: the nodes of all trees that reading has returned have distinct numbers,
and the functions in the machines of its sessions come from these trees. When a program is run, it
is distinct from all these trees; the depths that resolution found are recorded for nodes that have
none; and at every moment the functions in the machine come from these trees or from the program,
and what is recorded for the nodes of the trees is what was recorded before. Whatever the process
does later, what a machine has recorded for these nodes stays the same. -/
theorem identities_never_collide (hp : p.Reached) :
    Tree.Distinct p.trees ∧
    (∀ m ∈ p.machines, m.FunctionsIn (p.trees.flatMap Tree.functions)) ∧
    (∀ m ∈ p.machines, ∀ source statements found,
      (Reading.ofSource source p.nextId).result = .ok statements → resolve statements = .ok found →
      Tree.Distinct (p.trees ++ [Tree.program statements]) ∧
      (∀ entry ∈ found, m.depths[entry.1]? = none) ∧
      ∀ bound c, Session.Does ⟨m, p.nextId⟩ bound source c →
        c.machine.FunctionsIn ((p.trees ++ [Tree.program statements]).flatMap Tree.functions) ∧
        Records p.trees m c.machine) ∧
    ∀ q, Later p q → ∀ (i : Nat) m, p.machines[i]? = some m →
      ∃ n, q.machines[i]? = some n ∧ Records p.trees m n := by
  have hsound := hp.sound
  refine ⟨Tree.distinct_of_nodup hsound.nodup, fun m hm => (hsound.under m hm).functionsIn,
    fun m hm source statements found hread hresolve => hsound.run_distinct hm hread hresolve,
    fun q hq i m hm => hq.records hsound hm⟩

/-- A name is read, and then a block with a local variable is run. -/
theorem identities_never_collide_block :
    ∃ p : Process, p.Reached ∧ p.trees.flatMap Tree.nodes = [0] ∧ Tree.Distinct p.trees ∧
      (∃ statements,
        (Reading.ofSource "{ var b = 1; print b; }" p.nextId).result = .ok statements ∧
        resolve statements = .ok [(1, 0)] ∧ Stmt.nodesAll statements = [1] ∧
        Tree.Distinct (p.trees ++ [Tree.program statements]) ∧
        ∀ m ∈ p.machines, m.depths[1]? = none) ∧
      ∀ q, Later p q → ∀ m, p.machines[0]? = some m →
        ∃ n, q.machines[0]? = some n ∧ Records p.trees m n := by
  let read := Reading.ofTokens [⟨.identifier, "a", 1⟩, ⟨.symbol .semicolon, ";", 1⟩, .atEnd 1] 0
  have htokens : read = ⟨.ok [.expression (.reference ⟨0, ⟨"a", 1⟩⟩)], 1⟩ := by
    have hresult : read.result = .ok [.expression (.reference ⟨0, ⟨"a", 1⟩⟩)] := by decide +kernel
    have hnext : read.nextId = 1 := by decide +kernel
    rw [← hresult, ← hnext]
  let one : Expr := .literal (.number (numeralValue ['1'] []))
  have hstatements : (Reading.ofSource "{ var b = 1; print b; }" 1).result =
      .ok [.block [.var ⟨"b", 1⟩ (some one), .print (.reference ⟨1, ⟨"b", 1⟩⟩)]] := by
    decide +kernel
  have hresolve : resolve [.block [.var ⟨"b", 1⟩ (some one), .print (.reference ⟨1, ⟨"b", 1⟩⟩)]] =
      .ok [(1, 0)] := rfl
  have hp : Reached (took ⟨[((Session.start ⟨0⟩).withOutput .unlimited).machine], 0, []⟩ read
      .program) :=
    .tail (.tail .refl (.start ⟨0⟩ .unlimited)) (.read _)
  rw [htokens] at hp
  obtain ⟨hdistinct, -, hrun, hlater⟩ := identities_never_collide hp
  refine ⟨_, hp, rfl, hdistinct, ⟨_, hstatements, hresolve, rfl, ?_, fun m hm => ?_⟩,
    fun q hq => hlater q hq 0⟩
  · exact (hrun _ (.head _) _ _ _ hstatements hresolve).1
  · exact (hrun m hm _ _ _ hstatements hresolve).2.1 (1, 0) (.head _)

end Process

end Lox
