import Lox.Proofs.Evaluation.AlikeRuns
import Lox.Proofs.Evaluation.Descriptions
import Lox.Proofs.Evaluation.Restoring
import Lox.Proofs.Resolution.Counterparts
import Lox.Proofs.Resolution.Likeness
import Lox.Proofs.Session.Preparation
import Lox.Proofs.Token.Joining

/-!
# Sessions alike

Two sessions are alike if their machines are, when nodes stand for each other that have the same depth.
The numbers that the next text gets do not matter: from like sessions a text runs alike, and leaves them
alike.
-/

namespace Lox

open Grammar Procedure

/-! ### Depths -/

section Depths

variable {lines lines' : Lines}
  {depths others depths' others' : Depths} {high limit high' limit' : NodeId} {w : World}
  {m n : Machine}

theorem Correspondence.byDepth_le (hline : ∀ k l, lines.related k l → lines'.related k l) (hhigh : high ≤ high')
    (hlimit : limit ≤ limit') (hd : ∀ i < high, depths' i = depths i)
    (ho : ∀ j < limit, others' j = others j) :
    (byDepth lines depths others high limit).Le
      (byDepth lines' depths' others' high' limit') where
  node h := ⟨Nat.lt_of_lt_of_le h.1 hhigh, Nat.lt_of_lt_of_le h.2.1 hlimit,
    (hd _ h.1).trans (h.2.2.trans (ho _ h.2.1).symm)⟩
  depth h := hd _ h.1
  line h := hline _ _ h

namespace Machine

/-- The machines are alike when nodes below these stand for each other that have the same depth. -/
abbrev AlikeByDepth (lines : Lines) (high limit : NodeId) (w : World)
    (m n : Machine) : Prop :=
  m.Alike (.byDepth lines (m.depths[·]?) (n.depths[·]?) high limit) w n

/-- Depths may be recorded for more nodes, and lines may be related by less. -/
theorem AlikeByDepth.record (h : AlikeByDepth lines high limit w m n)
    (hline : ∀ k l, lines.related k l → lines'.related k l) (hhigh : high ≤ high') (hlimit : limit ≤ limit')
    {found more : Std.HashMap NodeId Nat} (hd : ∀ i < high, found[i]? = m.depths[i]?)
    (ho : ∀ j < limit, more[j]? = n.depths[j]?) :
    AlikeByDepth lines' high' limit' w { m with depths := found }
      { n with depths := more } := by
  have hle := Correspondence.byDepth_le hline hhigh hlimit hd ho
  exact { h with
    store := h.store.mono fun _ _ h => h.mono hle (.refl w)
    fields := h.fields.mono fun _ _ h => h.mono hle (.refl w)
    depths := fun i j hij => ⟨rfl, hij.2.2.symm⟩ }

/-- In the global environment nothing is known but that names stay. -/
theorem Alike.shows_global {r : Correspondence} (h : m.Alike r w n) :
    Environment.global.Shows w [.plain] := by
  obtain ⟨frame, hframe, hrefl⟩ := h.global
  exact .cons ⟨frame, hframe, hrefl, nofun⟩ .nil

/-- Both machines after runs from like machines. -/
structure Follow (lines : Lines) (high limit : NodeId) (m n after last : Machine) : Prop where
  left : m.Restored after
  right : n.Restored last
  alike : ∃ w, AlikeByDepth lines high limit w after last

/-- Programs that are counterparts run alike at the top level. -/
theorem AlikeByDepth.runCounterpart {body others : List Stmt} (h : AlikeByDepth lines high limit w m n)
    (henv : m.environment = .global)
    (hs : Stmt.BodyCounterpart (.byDepth lines (m.depths[·]?) (n.depths[·]?) high limit) [.plain] body others)
    (bound : Nat) :
    Agree
      (fun e f after last => e.fault = f.fault ∧ lines.related e.line f.line ∧
        Follow lines high limit m n after last)
      (Lox.runProgram bound body) (Lox.runProgram bound others) m n
      fun _ _ after last => Follow lines high limit m n after last := by
  have hrun := lockstep_runProgram bound ⟨h, henv ▸ h.shows_global⟩ hs
  have hfollow : ∀ {after last : Machine}, (Lox.runProgram bound body m).state? = some after →
      (Lox.runProgram bound others n).state? = some last →
      (∃ w, after.Alike (.byDepth lines (m.depths[·]?) (n.depths[·]?) high limit) w last) →
      Follow lines high limit m n after last := by
    rintro after last hafter hlast ⟨w, halike⟩
    have hleft := restores_runProgram bound body m after hafter
    have hright := restores_runProgram bound others n last hlast
    refine ⟨hleft, hright, w, ?_⟩
    unfold AlikeByDepth
    rw [hleft.depths, hright.depths]
    exact halike
  rcases hrun.cases with ⟨_, _, after, last, hx, hy, w', -, halike, -⟩ |
    ⟨e, f, after, last, hx, hy, hfault, hline, halike⟩ | ⟨hx, hy⟩
  · exact .of_ok hx hy (hfollow (by rw [hx]; rfl) (by rw [hy]; rfl) ⟨w', halike.toAlike⟩)
  · exact .of_error hx hy ⟨hfault, hline, hfollow (by rw [hx]; rfl) (by rw [hy]; rfl) halike⟩
  · exact .of_exhausted hx hy

/-- Placed programs that are alike run alike at the top level. -/
theorem AlikeByDepth.runProgram {l : Likeness} {body others : List Stmt}
    (h : AlikeByDepth lines high limit w m n) (henv : m.environment = .global)
    (hl : l.Within lines) (hs : StmtsAlike l body others)
    (hbody : Stmt.PlacedAll (m.depths[·]?) [] body)
    (hothers : Stmt.PlacedAll (n.depths[·]?) [] others)
    (hhigh : ∀ id ∈ Stmt.nodesAll body, id < high)
    (hlimit : ∀ id ∈ Stmt.nodesAll others, id < limit) (bound : Nat) :
    Agree
      (fun e f after last => e.fault = f.fault ∧ lines.related e.line f.line ∧
        Follow lines high limit m n after last)
      (Lox.runProgram bound body) (Lox.runProgram bound others) m n
      fun _ _ after last => Follow lines high limit m n after last := by
  have hunchanged : Frames.Unchanged [.plain] := List.forall_mem_singleton.2 rfl
  exact h.runCounterpart henv
    (Stmt.all_alike_counterpart hl hunchanged hs hbody hothers hhigh hlimit) bound

end Machine

end Depths

/-! ### Sessions -/

theorem check_eq_ok_iff {source : String} :
    check source = .ok () ↔
      ∃ tree, (Reading.ofSource source 0).result = .ok tree ∧ Resolves tree := by
  unfold check
  cases hread : (Reading.ofSource source 0).result with
  | error faults => simp [bind, Except.bind]
  | ok tree =>
    cases hresolve : resolve tree with
    | error faults => simp [bind, Except.bind, hresolve, Resolves]
    | ok found => simp [bind, Except.bind, hresolve, Resolves, pure, Except.pure]

namespace Session

section OnMachine

variable {σ ε α β : Type} {k : NodeId} {m : Machine} {s : σ} {x : Run α} {y : Procedure σ ε β}

/-- A run on the machine of a session agrees with what the run on the machine alone agrees with. -/
theorem agree_onMachine {E : Failure → ε → Machine → σ → Prop} {P : α → β → Machine → σ → Prop}
    (h : Agree E x y m s P) :
    Agree (fun e f t s => (∃ failure, e = .failed failure ∧ E failure f t.machine s) ∧ t.nextId = k)
      (onMachine x) y ⟨m, k⟩ s fun a b t s => P a b t.machine s ∧ t.nextId = k := by
  unfold onMachine
  rcases h.cases with ⟨a, b, after, last, hx, hy, hP⟩ | ⟨e, f, after, last, hx, hy, hE⟩ | ⟨hx, hy⟩
  · exact .of_ok (by rw [hx]) hy ⟨hP, rfl⟩
  · exact .of_error (by rw [hx]) hy ⟨⟨e, rfl, hE⟩, rfl⟩
  · exact .of_exhausted (by rw [hx]) hy

end OnMachine

/-- Sessions that texts run alike in, on the same lines. -/
structure Alike (s t : Session) : Prop where
  machine : ∃ w, Machine.AlikeByDepth .same s.nextId t.nextId w s.machine t.machine
  environment : s.machine.environment = .global
  left : s.Unnumbered
  right : t.Unnumbered

/-- The sessions show the same: all that was printed, and the global variables with the descriptions of
their values. -/
structure ShowsSame (s t : Session) : Prop where
  printed : s.printed = t.printed
  globals : ∀ name, s.machine.describe? name = t.machine.describe? name

namespace Alike

variable {s t u v : Session} {body others : List Stmt}

theorem printed_eq (h : s.Alike t) : s.printed = t.printed := by
  obtain ⟨w, hmachine⟩ := h.machine
  exact congrArg Output.text hmachine.output

theorem showsSame (h : s.Alike t) : s.ShowsSame t := by
  obtain ⟨w, hmachine⟩ := h.machine
  exact ⟨h.printed_eq, hmachine.describe?_eq⟩

/-- A session that has used up more numbers is alike. -/
theorem skip (h : s.Alike t) {k : NodeId} (hk : s.nextId ≤ k) : Alike { s with nextId := k } t := by
  obtain ⟨w, hmachine⟩ := h.machine
  exact ⟨⟨w, hmachine.record (fun _ _ h => h) hk (Nat.le_refl _) (fun _ _ => rfl) fun _ _ => rfl⟩, h.environment,
    fun id hid => h.left id (Nat.le_trans hk hid), h.right⟩

/-- Sessions that are ready to run a text are alike. -/
theorem prepared {source text : String} (h : s.Alike t) (hs : Prepared s source body u)
    (ht : Prepared t text others v) : u.Alike v := by
  obtain ⟨w, hmachine⟩ := h.machine
  obtain ⟨found, -, hu⟩ := hs.machine
  obtain ⟨more, -, hv⟩ := ht.machine
  have hleft : ∀ i < s.nextId, u.machine.depths[i]? = s.machine.depths[i]? :=
    fun i hi => hs.depths_of_lt h.left hi
  have hright : ∀ j < t.nextId, v.machine.depths[j]? = t.machine.depths[j]? :=
    fun j hj => ht.depths_of_lt h.right hj
  have hrecord := hmachine.record (fun _ _ h => h) hs.numbered.le
    ht.numbered.le hleft hright
  rw [hu] at hrecord
  rw [hv] at hrecord
  refine ⟨⟨w, ?_⟩, ?_, hs.unnumbered h.left, ht.unnumbered h.right⟩
  · rw [hu, hv]
    exact hrecord
  · rw [hu]
    exact h.environment

/-- Like sessions run counterparts alike. -/
theorem runCounterpart (h : u.Alike v)
    (hs : Stmt.BodyCounterpart
      (.byDepth .same (u.machine.depths[·]?) (v.machine.depths[·]?) u.nextId v.nextId) [.plain] body others)
    (bound : Nat) :
    Agree (fun e f s t => e = f ∧ (∃ failure, e = .failed failure) ∧ s.Alike t)
      (onMachine (Lox.runProgram bound body)) (onMachine (Lox.runProgram bound others)) u v
      fun _ _ s t => s.Alike t := by
  obtain ⟨w, hmachine⟩ := h.machine
  have hrun := hmachine.runCounterpart h.environment hs bound
  have hafter : ∀ {m n : Machine},
      Machine.Follow .same u.nextId v.nextId u.machine v.machine m n →
      Session.Alike ⟨m, u.nextId⟩ ⟨n, v.nextId⟩ := by
    intro m n h'
    refine ⟨h'.alike, h'.left.environment.trans h.environment, fun id hid => ?_, fun id hid => ?_⟩
    · rw [h'.left.depths]
      exact h.left id hid
    · rw [h'.right.depths]
      exact h.right id hid
  refine (agree_onMachine (agree_onMachine hrun).symm).symm.imp ?_ ?_
  · rintro _ _ ⟨m, k⟩ ⟨n, l⟩ ⟨⟨hfollow, rfl⟩, rfl⟩
    exact hafter hfollow
  · rintro _ _ ⟨m, k⟩ ⟨n, l⟩ ⟨⟨f, rfl, ⟨e, rfl, hfault, hline, hfollow⟩, rfl⟩, rfl⟩
    obtain ⟨fault, line⟩ := e
    obtain ⟨fault', line'⟩ := f
    obtain rfl : fault = fault' := hfault
    obtain rfl : line = line' := hline
    exact ⟨rfl, ⟨_, rfl⟩, hafter hfollow⟩

end Alike

/-- A text that is read as a program has the tokens of the program. -/
theorem finds_of_ofSource {source : String} {firstId : NodeId} {body : List Stmt}
    (h : (Reading.ofSource source firstId).result = .ok body) :
    ∃ tokens, Scan.Finds source tokens ∧ Program tokens body := by
  obtain ⟨⟨tokens, line, htokens, hfaults, -, hprogram⟩, -⟩ := program_of_ofSource h
  exact ⟨tokens, ⟨line, htokens, hfaults⟩, hprogram⟩

/-- A text with the tokens of a program is read as the program, whatever number comes first. -/
theorem ofSource_of_finds {source : String} {tokens : List Token} {body : List Stmt}
    (h : Scan.Finds source tokens) (hprogram : Program tokens body) (firstId : NodeId) :
    ∃ read, (Reading.ofSource source firstId).result = .ok read ∧ StmtsAlike .upToNodes read body := by
  obtain ⟨line, htokens, hfaults⟩ := h
  have heof : (Token.atEnd line).kind = .endOfSource := rfl
  obtain ⟨read, hread, hlike⟩ := Reading.ofTokens_of_program heof hprogram firstId
  refine ⟨read, ?_, hlike⟩
  simp only [Reading.ofSource, htokens, hread, hfaults]
  rfl

/-- From another number on a text is read as a like tree. -/
theorem ofSource_alike {source : String} {firstId : NodeId} {body : List Stmt}
    (h : (Reading.ofSource source firstId).result = .ok body) (otherId : NodeId) :
    ∃ others, (Reading.ofSource source otherId).result = .ok others ∧
      StmtsAlike .upToNodes body others ∧ StmtsAlike .upToNodes others body := by
  have hread : ∀ {firstId : NodeId} {body : List Stmt},
      (Reading.ofSource source firstId).result = .ok body → ∀ otherId,
      ∃ others, (Reading.ofSource source otherId).result = .ok others ∧
        StmtsAlike .upToNodes others body := by
    intro firstId body h otherId
    obtain ⟨tokens, hfinds, hprogram⟩ := finds_of_ofSource h
    exact ofSource_of_finds hfinds hprogram otherId
  obtain ⟨others, hothers, hlike⟩ := hread h otherId
  -- Reading the text from the first number again gives the first tree.
  obtain ⟨again, hagain, hback⟩ := hread hothers firstId
  obtain rfl : again = body := Except.ok.inj (hagain.symm.trans h)
  exact ⟨others, hothers, hback, hlike⟩

/-- A text that is turned down leaves nothing but a gap in the numbers. -/
def Rejects (s : Session) (bound : Nat) (source : String) : Prop :=
  ∃ faults k, s.nextId ≤ k ∧
    run bound source s = .error (.rejected faults) { s with nextId := k }

/-- A text is turned down in both of two like sessions, or it runs alike in them. -/
theorem Alike.run {s t : Session} (h : s.Alike t) (bound : Nat) (source : String) :
    s.Rejects bound source ∧ t.Rejects bound source ∨
    Agree (fun e f s t => e = f ∧ (∃ failure, e = .failed failure) ∧ s.Alike t)
      (Session.run bound source) (Session.run bound source) s t fun _ _ s t => s.Alike t := by
  by_cases haccepted : ∃ body, (Reading.ofSource source s.nextId).result = .ok body ∧ Resolves body
  · obtain ⟨body, hbody, found, hfound⟩ := haccepted
    obtain ⟨others, hothers, hlike, -⟩ := ofSource_alike hbody t.nextId
    obtain ⟨more, hmore⟩ := (resolves_congr hlike).1 ⟨found, hfound⟩
    have hu := prepared_of_resolve hbody hfound
    have hv := prepared_of_resolve hothers hmore
    refine .inr (.congr (run_of_resolve bound hbody hfound) (run_of_resolve bound hothers hmore) ?_)
    have hunchanged : Frames.Unchanged [.plain] := List.forall_mem_singleton.2 rfl
    exact (h.prepared hu hv).runCounterpart (Stmt.all_alike_counterpart (fun _ _ h => h) hunchanged hlike
      (hu.placed h.left) (hv.placed h.right) (fun id hid => (hu.numbered.mem id hid).2)
      fun id hid => (hv.numbered.mem id hid).2) bound
  · refine .inl ⟨?_, ?_⟩
    · rcases run_cases bound source s with hs | ⟨body, u, hbody, hu, -⟩
      · exact hs
      · obtain ⟨found, hfound, -⟩ := hu.machine
        exact absurd ⟨body, hbody, found, hfound⟩ haccepted
    · rcases run_cases bound source t with ht | ⟨others, v, hothers, hv, -⟩
      · exact ht
      · obtain ⟨more, hmore, -⟩ := hv.machine
        obtain ⟨body, hbody, hlike, -⟩ := ofSource_alike hothers s.nextId
        exact absurd ⟨body, hbody, (resolves_congr hlike).1 ⟨more, hmore⟩⟩ haccepted

end Session

end Lox
