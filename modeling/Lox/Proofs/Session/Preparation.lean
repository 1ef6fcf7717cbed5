import Lox.Proofs.Evaluation.Reach
import Lox.Proofs.Resolution.Walk
import Lox.Session

/-!
# What precedes a run

A source text is either turned down, and then only node numbers are used up, or it is prepared: its
statements are a program of the grammar with new node numbers, and the depths recorded for them
place every reference.
-/

namespace Lox

open Grammar Procedure

/-- Of the depths recorded for a node, the newest counts. -/
theorem getElem?_insertMany (table : Std.HashMap NodeId Nat) (found : List (NodeId × Nat))
    (id : NodeId) :
    (table.insertMany found.reverse)[id]? = (found.lookup id).or table[id]? := by
  induction found with
  | nil => simp
  | cons entry rest ih =>
    obtain ⟨key, depth⟩ := entry
    rw [List.reverse_cons, Std.HashMap.insertMany_append, Std.HashMap.insertMany_list_singleton,
      Std.HashMap.getElem?_insert, ih, List.lookup_cons]
    by_cases hk : key = id
    · subst hk
      simp
    · have hne : (id == key) = false := beq_eq_false_iff_ne.2 (Ne.symm hk)
      simp [hk, hne]

/-- Resolution places every reference, and records depths for the nodes of its program only. -/
theorem placed_of_resolve {statements : List Stmt} {found : List (NodeId × Nat)}
    (h : resolve statements = .ok found) (ho : Stmt.OrdinaryAll statements)
    (hn : (Stmt.nodesAll statements).Nodup) (table : Std.HashMap NodeId Nat)
    (hfresh : ∀ id ∈ Stmt.nodesAll statements, table[id]? = none) :
    Stmt.PlacedAll ((table.insertMany found)[·]?) [] statements ∧
      ∀ id, id ∉ Stmt.nodesAll statements → (table.insertMany found)[id]? = table[id]? := by
  obtain ⟨-, recorded, noted, hd, hf, hmem, hplaced⟩ :=
    Resolution.stmts_visited Resolution.start_around Resolution.start_settled statements ho
  have hdepths : (Resolution.start.stmts statements).depths = recorded := by
    rw [hd]
    exact List.append_nil _
  unfold resolve at h
  simp only at h
  split at h
  · next hempty =>
    cases h
    have hnil : noted = [] := by
      rw [List.isEmpty_iff, hf] at hempty
      exact (List.append_eq_nil_iff.1 hempty).1
    simp only [getElem?_insertMany, hdepths]
    refine ⟨hplaced hnil hn _ fun id hid => ?_, fun id hid => ?_⟩
    · rw [hfresh id hid, Option.or_none]
    · have hnone : recorded.lookup id = none :=
        Resolution.lookup_eq_none fun entry hentry he => hid (he ▸ hmem entry hentry)
      rw [hnone, Option.none_or]
  · cases h

namespace Session

/-- The text `source` was accepted in the session `s` as these statements, and `t` is the session
that is ready to run them. -/
structure Prepared (s : Session) (source : String) (statements : List Stmt) (t : Session) :
    Prop where
  tokens : ∃ body line, (Scan.ofText source).tokens = body ++ [.atEnd line] ∧
    (Scan.ofText source).faults = [] ∧ (∀ t ∈ body, t.Found) ∧ Program body statements
  numbered : Numbered s.nextId t.nextId (Stmt.nodesAll statements)
  machine : ∃ found, resolve statements = .ok found ∧
    t.machine = { s.machine with depths := s.machine.depths.insertMany found }

/-- No depth is recorded for a node number that is still to be taken. -/
def Unnumbered (s : Session) : Prop := ∀ id, s.nextId ≤ id → s.machine.depths[id]? = none

namespace Prepared

variable {s t : Session} {source : String} {statements : List Stmt}

theorem ordinary (h : Prepared s source statements t) : Stmt.OrdinaryAll statements := by
  obtain ⟨body, line, -, -, hfound, hprogram⟩ := h.tokens
  exact hprogram.ordinary hfound

/-- Every reference of a prepared program is placed. -/
theorem placed (h : Prepared s source statements t) (hs : s.Unnumbered) :
    Stmt.PlacedAll (t.machine.depths[·]?) [] statements := by
  obtain ⟨found, hfound, hmachine⟩ := h.machine
  rw [hmachine]
  exact (placed_of_resolve hfound h.ordinary h.numbered.nodup s.machine.depths
    fun id hid => hs id (h.numbered.mem id hid).1).1

/-- The depths of programs before are kept. -/
theorem depths_of_lt (h : Prepared s source statements t) (hs : s.Unnumbered) {id : NodeId}
    (hid : id < s.nextId) : t.machine.depths[id]? = s.machine.depths[id]? := by
  obtain ⟨found, hfound, hmachine⟩ := h.machine
  rw [hmachine]
  refine (placed_of_resolve hfound h.ordinary h.numbered.nodup s.machine.depths
    fun id hid => hs id (h.numbered.mem id hid).1).2 id fun hmem => ?_
  exact Nat.not_lt.2 (h.numbered.mem id hmem).1 hid

theorem unnumbered (h : Prepared s source statements t) (hs : s.Unnumbered) : t.Unnumbered := by
  intro id hid
  obtain ⟨found, hfound, hmachine⟩ := h.machine
  rw [hmachine]
  refine ((placed_of_resolve hfound h.ordinary h.numbered.nodup s.machine.depths
    fun id hid => hs id (h.numbered.mem id hid).1).2 id fun hmem => ?_).trans
      (hs id (Nat.le_trans h.numbered.le hid))
  exact Nat.not_lt.2 hid (h.numbered.mem id hmem).2

end Prepared

theorem nextId_le_ofSource (source : String) (firstId : NodeId) :
    firstId ≤ (Reading.ofSource source firstId).nextId :=
  nextId_le_declarations _ _ [] ⟨_, firstId, []⟩

/-- A text that is read as a program is one. -/
theorem program_of_ofSource {source : String} {firstId : NodeId} {statements : List Stmt}
    (h : (Reading.ofSource source firstId).result = .ok statements) :
    (∃ body line, (Scan.ofText source).tokens = body ++ [.atEnd line] ∧
      (Scan.ofText source).faults = [] ∧ (∀ t ∈ body, t.Found) ∧ Program body statements) ∧
      Numbered firstId (Reading.ofSource source firstId).nextId (Stmt.nodesAll statements) := by
  obtain ⟨body, line, htokens, hfound⟩ := Scan.tokens_eq_append_end source
  simp only [Reading.ofSource] at h ⊢
  split at h
  · next read hread =>
    split at h
    · next hempty =>
      cases h
      rw [htokens] at hread ⊢
      obtain ⟨hprogram, hnumbered⟩ :=
        Reading.program_of_ofTokens (fun t ht => (hfound t ht).ne_end) rfl hread
      exact ⟨⟨body, line, rfl, List.isEmpty_iff.1 hempty, hfound, hprogram⟩, hnumbered⟩
    · cases h
  · cases h

theorem ordinary_of_ofSource {source : String} {firstId : NodeId} {statements : List Stmt}
    (h : (Reading.ofSource source firstId).result = .ok statements) : Stmt.OrdinaryAll statements := by
  obtain ⟨⟨body, line, -, -, hfound, hprogram⟩, -⟩ := program_of_ofSource h
  exact hprogram.ordinary hfound

/-- A text that is read and resolved without faults is prepared. -/
theorem prepared_of_resolve {s : Session} {source : String} {statements : List Stmt}
    {found : List (NodeId × Nat)} (hread : (Reading.ofSource source s.nextId).result = .ok statements)
    (hresolve : resolve statements = .ok found) :
    Prepared s source statements
      ⟨{ s.machine with depths := s.machine.depths.insertMany found },
        (Reading.ofSource source s.nextId).nextId⟩ := by
  obtain ⟨htokens, hnumbered⟩ := program_of_ofSource hread
  exact ⟨htokens, hnumbered, found, hresolve, rfl⟩

/-- A text with faults that reading finds is turned down for them. -/
theorem run_of_unread (bound : Nat) {s : Session} {source : String} {faults : List Diagnostic}
    (hread : (Reading.ofSource source s.nextId).result = .error faults) :
    run bound source s = .error (.rejected faults)
      { s with nextId := (Reading.ofSource source s.nextId).nextId } := by
  simp only [run, bind_apply, accept, hread]

/-- A text with faults that resolution finds is turned down for them. -/
theorem run_of_unresolved (bound : Nat) {s : Session} {source : String} {statements : List Stmt}
    {faults : List Diagnostic} (hread : (Reading.ofSource source s.nextId).result = .ok statements)
    (hresolve : resolve statements = .error faults) :
    run bound source s = .error (.rejected faults)
      { s with nextId := (Reading.ofSource source s.nextId).nextId } := by
  simp only [run, bind_apply, accept, hread, addDepths, hresolve, fail]

/-- A text that is read and resolved without faults is run with its depths recorded. -/
theorem run_of_resolve (bound : Nat) {s : Session} {source : String} {statements : List Stmt}
    {found : List (NodeId × Nat)} (hread : (Reading.ofSource source s.nextId).result = .ok statements)
    (hresolve : resolve statements = .ok found) :
    run bound source s = onMachine (runProgram bound statements)
      ⟨{ s.machine with depths := s.machine.depths.insertMany found },
        (Reading.ofSource source s.nextId).nextId⟩ := by
  simp only [run, bind_apply, accept, hread, addDepths, hresolve, update]

/-- A program in which no name is local is run with the depths of the programs before it. -/
theorem run_of_resolve_nil (bound : Nat) {s : Session} {source : String} {statements : List Stmt}
    (hread : (Reading.ofSource source s.nextId).result = .ok statements)
    (hresolve : resolve statements = .ok []) :
    run bound source s = onMachine (runProgram bound statements)
      ⟨s.machine, (Reading.ofSource source s.nextId).nextId⟩ := by
  rw [run_of_resolve bound hread hresolve, Std.HashMap.insertMany_nil]

/-- A text is turned down, which uses up node numbers, or it is prepared and then run. -/
theorem run_cases (bound : Nat) (source : String) (s : Session) :
    (∃ faults k, s.nextId ≤ k ∧
      run bound source s = .error (.rejected faults) { s with nextId := k }) ∨
    ∃ statements t, (Reading.ofSource source s.nextId).result = .ok statements ∧
      Prepared s source statements t ∧
      run bound source s = onMachine (runProgram bound statements) t := by
  have hle := nextId_le_ofSource source s.nextId
  cases hread : (Reading.ofSource source s.nextId).result with
  | error faults => exact .inl ⟨faults, _, hle, run_of_unread bound hread⟩
  | ok statements =>
    cases hresolve : resolve statements with
    | error faults => exact .inl ⟨faults, _, hle, run_of_unresolved bound hread hresolve⟩
    | ok found =>
      exact .inr ⟨statements, _, rfl, prepared_of_resolve hread hresolve,
        run_of_resolve bound hread hresolve⟩

/-! ### Where a run leads -/

section OnMachine

variable {α : Type} (x : Run α) (s : Session)

/-- A run on the machine of a session takes no node numbers. -/
theorem state?_onMachine : (onMachine x s).state? = (x s.machine).state?.map (⟨·, s.nextId⟩) := by
  unfold onMachine
  cases x s.machine <;> rfl

/-- It fails with a failure of the run. -/
theorem failed_of_onMachine {e : Session.Error} {t : Session} (h : onMachine x s = .error e t) :
    ∃ failure, e = .failed failure ∧ (x s.machine).failure? = some failure := by
  unfold onMachine at h
  cases ho : x s.machine with
  | ok a m | exhausted =>
    rw [ho] at h
    cases h
  | error failure m =>
    rw [ho] at h
    cases h
    exact ⟨failure, rfl, rfl⟩

end OnMachine

/-- The run of a text uses up node numbers, or it leads to where its program leads. -/
theorem cases_of_run {bound : Nat} {source : String} {s t : Session}
    (hrun : (run bound source s).state? = some t) :
    (∃ k, s.nextId ≤ k ∧ t = { s with nextId := k }) ∨
    ∃ statements u m, (Reading.ofSource source s.nextId).result = .ok statements ∧
      Prepared s source statements u ∧ (runProgram bound statements u.machine).state? = some m ∧
      t = ⟨m, u.nextId⟩ := by
  rcases run_cases bound source s with ⟨faults, k, hk, he⟩ | ⟨statements, u, hread, hp, he⟩
  · rw [he] at hrun
    cases hrun
    exact .inl ⟨k, hk, rfl⟩
  · rw [he, state?_onMachine] at hrun
    obtain ⟨m, hm, rfl⟩ := Option.map_eq_some_iff.1 hrun
    exact .inr ⟨statements, u, m, hread, hp, hm, rfl⟩

end Session

end Lox
