import Lox.Proofs.Grammar.Joining
import Lox.Proofs.Session.Arising

/-!
# Running in pieces

Texts that are accepted one by one are accepted as one text, on the lines one after the other. Running
them one after the other and running the one text comes to the same, but for the lines of errors.
-/

namespace Lox

open Grammar Procedure

/-! ### Trees in a row -/

theorem Likeness.joins_shape (l k : Likeness) : l.Joins k .shape := ⟨fun _ _ => trivial, fun _ _ => trivial⟩

/-- A list that is like a concatenation is a concatenation of like lists. -/
theorem StmtsAlike.of_flatten {l : Likeness} {body : List Stmt} {pieces : List (List Stmt)}
    (h : StmtsAlike l body pieces.flatten) :
    ∃ others, body = others.flatten ∧ List.Forall₂ (StmtsAlike l) others pieces := by
  induction pieces generalizing body with
  | nil =>
    cases h
    exact ⟨[], rfl, .nil⟩
  | cons piece rest ih =>
    rw [List.flatten_cons] at h
    have hfirst := List.forall₂_take_append body piece rest.flatten h
    have hrest := List.forall₂_drop_append body piece rest.flatten h
    obtain ⟨others, hothers, hall⟩ := ih hrest
    refine ⟨body.take piece.length :: others, ?_, .cons hfirst hall⟩
    rw [List.flatten_cons, ← hothers, List.take_append_drop]

theorem nodesAll_append (body others : List Stmt) :
    Stmt.nodesAll (body ++ others) = Stmt.nodesAll body ++ Stmt.nodesAll others := by
  induction body with
  | nil => rfl
  | cons s rest ih => rw [List.cons_append, Stmt.nodesAll, Stmt.nodesAll, ih, List.append_assoc]

theorem placedAll_append {depths : Depths} {body others : List Stmt} :
    Stmt.PlacedAll depths [] (body ++ others) ↔
      Stmt.PlacedAll depths [] body ∧ Stmt.PlacedAll depths [] others := by
  induction body with
  | nil => simp [Stmt.PlacedAll]
  | cons s rest ih =>
    rw [List.cons_append, Stmt.PlacedAll, Stmt.PlacedAll, ScopeNames.after_nil, ih, and_assoc]

theorem runProgram_append (bound : Nat) (body others : List Stmt) :
    runProgram bound (body ++ others) =
      (do runProgram bound body; runProgram bound others) := by
  induction body with
  | nil => rfl
  | cons s rest ih => simp only [List.cons_append, runProgram, ih, bind_assoc]

/-! ### The joined text -/

/-- The text is accepted, and these statements are like it. -/
def Text.IsPiece (source : String) (piece : List Stmt) : Prop :=
  ∃ tree, (Reading.ofSource source 0).result = .ok tree ∧ Resolves tree ∧ StmtsAlike .shape piece tree

theorem Text.IsPiece.alike {l : Likeness} {source : String} {piece other : List Stmt}
    (h : IsPiece source piece) (hl : StmtsAlike l other piece) : IsPiece source other := by
  obtain ⟨tree, hread, hresolves, hlike⟩ := h
  exact ⟨tree, hread, hresolves, Stmt.all_alike_trans (l.joins_shape .shape) hl hlike⟩

theorem Text.all_isPiece_alike {l : Likeness} {sources : List String} {pieces others : List (List Stmt)}
    (h : List.Forall₂ IsPiece sources pieces) (hl : List.Forall₂ (StmtsAlike l) others pieces) :
    List.Forall₂ IsPiece sources others := by
  induction h generalizing others with
  | nil =>
    cases hl
    exact .nil
  | cons hpiece _ ih => cases hl with | cons hfirst hrest => exact .cons (hpiece.alike hfirst) (ih hrest)

/-- Texts that are accepted make up a program when they are joined. -/
theorem program_of_joined {sources : List String} (h : ∀ source ∈ sources, check source = .ok ()) :
    ∃ tokens pieces, Scan.Finds ("\n".intercalate sources) tokens ∧
      Program tokens pieces.flatten ∧ Resolves pieces.flatten ∧
      List.Forall₂ Text.IsPiece sources pieces := by
  induction sources with
  | nil => exact ⟨[], [], Scan.finds_empty, .noDeclarations, ⟨[], rfl⟩, .nil⟩
  | cons source rest ih =>
    rw [List.forall_mem_cons] at h
    obtain ⟨tree, hread, hresolves⟩ := check_eq_ok_iff.1 h.1
    obtain ⟨tokens, hfinds, hprogram⟩ := Session.finds_of_ofSource hread
    have hself : StmtsAlike .shape tree tree :=
      Stmt.all_alike_self (fun _ => trivial) tree fun _ _ => trivial
    have hpiece : Text.IsPiece source tree := ⟨tree, hread, hresolves, hself⟩
    cases rest with
    | nil =>
      rw [String.intercalate_singleton]
      refine ⟨tokens, [tree], hfinds, ?_, ?_, .cons hpiece .nil⟩ <;>
        rwa [List.flatten_singleton]
    | cons next rest =>
      obtain ⟨more, pieces, hmore, hrest, hresolves', hpieces⟩ := ih h.2
      obtain ⟨lines, hjoined⟩ := hfinds.join hmore
      obtain ⟨others, hothers, hlike⟩ := hrest.later lines
      obtain ⟨pieces', rfl, hlikes⟩ := hlike.of_flatten
      rw [String.intercalate_cons_cons]
      refine ⟨_, tree :: pieces', hjoined, hprogram.append hothers, ?_, .cons hpiece ?_⟩
      · exact hresolves.append (Session.ordinary_of_ofSource hread) ((resolves_congr hlike).2 hresolves')
      · exact Text.all_isPiece_alike hpieces hlikes

/-- The joined text is read as a program whose pieces are like the texts. -/
theorem ofSource_joined {sources : List String} (h : ∀ source ∈ sources, check source = .ok ())
    (firstId : NodeId) :
    ∃ pieces, (Reading.ofSource ("\n".intercalate sources) firstId).result = .ok pieces.flatten ∧
      Resolves pieces.flatten ∧ List.Forall₂ Text.IsPiece sources pieces := by
  obtain ⟨tokens, pieces, hfinds, hprogram, hresolves, hpieces⟩ := program_of_joined h
  obtain ⟨read, hread, hlike⟩ := Session.ofSource_of_finds hfinds hprogram firstId
  obtain ⟨others, rfl, hlikes⟩ := hlike.of_flatten
  exact ⟨others, hread, (resolves_congr hlike).2 hresolves, Text.all_isPiece_alike hpieces hlikes⟩

/-! ### Runs -/

namespace Session

/-- Runs texts one after the other, up to the first that ends in an error. -/
def runAll (bound : Nat) : List String → Step Unit
  | [] => return ()
  | source :: rest => do
    run bound source
    runAll bound rest

/-- The machine of a joined run beside the session in which the texts are run one by one. -/
structure Beside (high : NodeId) (m : Machine) (t : Session) : Prop where
  alike : ∃ w, Machine.AlikeByDepth .any high t.nextId w m t.machine
  environment : m.environment = .global
  unnumbered : t.Unnumbered

/-- The end of both runs in an error, with the same fault. -/
def FailBeside (high : NodeId) (e : Failure) (f : Session.Error) (m : Machine) (t : Session) : Prop :=
  (∃ failure, f = .failed failure ∧ e.fault = failure.fault) ∧ Beside high m t

/-- A text runs like the piece of a program that is like it. -/
theorem Beside.run {high : NodeId} {m : Machine} {t : Session} {source : String} {piece : List Stmt}
    (h : Beside high m t) (hpiece : Text.IsPiece source piece)
    (hplaced : Stmt.PlacedAll (m.depths[·]?) [] piece)
    (hhigh : ∀ id ∈ Stmt.nodesAll piece, id < high) (bound : Nat) :
    Agree (FailBeside high) (runProgram bound piece) (Session.run bound source) m t
      fun _ _ after last => Beside high after last ∧ after.depths = m.depths := by
  obtain ⟨tree, hread, hresolves, hlike⟩ := hpiece
  obtain ⟨others, hothers, hlikes, -⟩ := ofSource_alike hread t.nextId
  obtain ⟨found, hfound⟩ := (resolves_congr hlikes).1 hresolves
  have hv := prepared_of_resolve hothers hfound
  have hshape : StmtsAlike .shape piece others :=
    Stmt.all_alike_trans (Likeness.joins_shape _ _) hlike hlikes
  obtain ⟨w, halike⟩ := h.alike
  have hready : Machine.AlikeByDepth .any high (Reading.ofSource source t.nextId).nextId w m
      { t.machine with depths := t.machine.depths.insertMany found } :=
    halike.record (fun _ _ h => h) (Nat.le_refl high) hv.numbered.le (fun _ _ => rfl)
      fun _ hj => hv.depths_of_lt h.unnumbered hj
  have hagree := hready.runProgram h.environment (fun _ _ _ => trivial) hshape hplaced
    (hv.placed h.unnumbered) hhigh (fun id hid => (hv.numbered.mem id hid).2) bound
  have hafter : ∀ {after last : Machine},
      Machine.Follow .any high (Reading.ofSource source t.nextId).nextId m
        { t.machine with depths := t.machine.depths.insertMany found } after last →
      Beside high after ⟨last, (Reading.ofSource source t.nextId).nextId⟩ := by
    intro after last hfollow
    refine ⟨hfollow.alike, hfollow.left.environment.trans h.environment, fun id hid => ?_⟩
    rw [hfollow.right.depths]
    exact hv.unnumbered h.unnumbered id hid
  refine Agree.congr rfl (run_of_resolve bound hothers hfound)
    ((agree_onMachine hagree.symm).symm.imp ?_ ?_)
  · rintro _ _ after ⟨last, k⟩ ⟨hfollow, rfl⟩
    exact ⟨hafter hfollow, hfollow.left.depths⟩
  · rintro e _ after ⟨last, k⟩ ⟨⟨failure, rfl, hfault, -, hfollow⟩, rfl⟩
    exact ⟨⟨failure, rfl, hfault⟩, hafter hfollow⟩

/-- Texts run one by one like the program that they make up. -/
theorem Beside.runAll {high : NodeId} {sources : List String} {pieces : List (List Stmt)}
    (hpieces : List.Forall₂ Text.IsPiece sources pieces) {m : Machine} {t : Session}
    (h : Beside high m t) (hplaced : Stmt.PlacedAll (m.depths[·]?) [] pieces.flatten)
    (hhigh : ∀ id ∈ Stmt.nodesAll pieces.flatten, id < high) (bound : Nat) :
    Agree (FailBeside high) (runProgram bound pieces.flatten) (Session.runAll bound sources) m t
      fun _ _ after last => Beside high after last := by
  induction hpieces generalizing m t with
  | nil => exact .of_ok rfl rfl h
  | cons hpiece _ ih =>
    rw [List.flatten_cons] at hplaced hhigh ⊢
    obtain ⟨hfirst, hrest⟩ := placedAll_append.1 hplaced
    rw [nodesAll_append, List.forall_mem_append] at hhigh
    rw [runProgram_append, Session.runAll]
    refine Agree.bind (h.run hpiece hfirst hhigh.1 bound) fun _ _ after last hafter => ?_
    exact ih hafter.1 (hafter.2.symm ▸ hrest) hhigh.2

theorem Beside.showsSame {high : NodeId} {s t : Session} (h : Beside high s.machine t) :
    s.ShowsSame t := by
  obtain ⟨w, halike⟩ := h.alike
  exact ⟨congrArg Output.text halike.output, halike.describe?_eq⟩

/-- Running in pieces equals running at once. Texts that are each accepted on their own are accepted
when they are joined by line breaks. In every session, running the joined text and running the texts one
after the other, up to the first error, end in the same way: both do not end, both end normally, or both
fail with the same fault. Afterwards the same has been printed and the global variables are the same. -/
theorem run_joined {s : Session} (hs : s.Arises HostFunction.Uniform) {sources : List String}
    (h : ∀ source ∈ sources, check source = .ok ()) :
    check ("\n".intercalate sources) = .ok () ∧
    ∀ bound, Agree
      (fun e f t u => (∃ failure failure', e = .failed failure ∧ f = .failed failure' ∧
        failure.fault = failure'.fault) ∧ t.ShowsSame u)
      (run bound ("\n".intercalate sources)) (runAll bound sources) s s
      fun _ _ t u => t.ShowsSame u := by
  constructor
  · obtain ⟨pieces, hread, hresolves, -⟩ := ofSource_joined h 0
    exact check_eq_ok_iff.2 ⟨_, hread, hresolves⟩
  · intro bound
    obtain ⟨pieces, hread, ⟨found, hfound⟩, hpieces⟩ := ofSource_joined h s.nextId
    have hv := prepared_of_resolve hread hfound
    have halike := hs.alike
    obtain ⟨w, hmachine⟩ := halike.machine
    have hready : Machine.AlikeByDepth .any
        (Reading.ofSource ("\n".intercalate sources) s.nextId).nextId s.nextId w
        { s.machine with depths := s.machine.depths.insertMany found } s.machine :=
      hmachine.record (fun _ _ _ => trivial) hv.numbered.le (Nat.le_refl _)
        (fun _ hi => hv.depths_of_lt halike.left hi) fun _ _ => rfl
    have hbeside : Beside (Reading.ofSource ("\n".intercalate sources) s.nextId).nextId
        { s.machine with depths := s.machine.depths.insertMany found } s :=
      ⟨⟨w, hready⟩, halike.environment, halike.right⟩
    have hagree := hbeside.runAll hpieces (hv.placed halike.left)
      (fun id hid => (hv.numbered.mem id hid).2) bound
    refine Agree.congr (run_of_resolve bound hread hfound) rfl ((agree_onMachine hagree).imp ?_ ?_)
    · rintro _ _ t u ⟨hafter, -⟩
      exact hafter.showsSame
    · rintro _ _ t u ⟨⟨failure, rfl, ⟨failure', rfl, hfault⟩, hafter⟩, -⟩
      exact ⟨⟨failure, failure', rfl, rfl, hfault⟩, hafter.showsSame⟩

/-- A declaration and a use of it on the line below. -/
theorem run_joined_two_lines :
    ((Session.start ⟨0⟩).withOutput .unlimited).Arises HostFunction.Uniform ∧
    (∀ source ∈ ["var a = 1;", "print a;"], check source = .ok ()) ∧
    check ("\n".intercalate ["var a = 1;", "print a;"]) = .ok () ∧
    ∀ bound, Agree
      (fun e f t u => (∃ failure failure', e = .failed failure ∧ f = .failed failure' ∧
        failure.fault = failure'.fault) ∧ t.ShowsSame u)
      (run bound ("\n".intercalate ["var a = 1;", "print a;"]))
      (runAll bound ["var a = 1;", "print a;"])
      ((Session.start ⟨0⟩).withOutput .unlimited) ((Session.start ⟨0⟩).withOutput .unlimited)
      fun _ _ t u => t.ShowsSame u := by
  have hchecks : ∀ source ∈ ["var a = 1;", "print a;"], check source = .ok () := by decide +kernel
  exact ⟨.start _ _, hchecks, run_joined (.start _ _) hchecks⟩

end Session

end Lox
