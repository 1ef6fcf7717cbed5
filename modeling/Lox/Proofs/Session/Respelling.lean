import Lox.Proofs.Respelling.Counterparts
import Lox.Proofs.Respelling.Rules
import Lox.Proofs.Respelling.Scopes
import Lox.Proofs.Respelling.Texts
import Lox.Proofs.Session.Arising
import Lox.Proofs.Syntax.Equality

/-!
# Local names do not matter

A local variable or a parameter can have another name. The text with the new name is accepted, and in every
session it runs like the text with the old one.
-/

namespace Lox

open Grammar Procedure

/-- The text is read as this tree, whatever the numbers of the nodes are. -/
def Text.Reads (source : String) (tree : List Stmt) : Prop :=
  ∃ read, (Reading.ofSource source 0).result = .ok read ∧ StmtsAlike .upToNodes read tree

namespace Session

variable {x y : String} {source text : String} {body other : List Stmt}

/-- For every respelled program there is a respelled text. -/
theorem exists_text_respelled (hy : IsName y) {firstId : NodeId}
    (hread : (Reading.ofSource source firstId).result = .ok body)
    (h : Stmt.BodyRespelled x y [] [] body other) :
    ∃ text : String, Text.Respelled x y source.toList text.toList ∧ Text.Reads text other := by
  obtain ⟨tokens, hfinds, hprogram⟩ := finds_of_ofSource hread
  obtain ⟨tokens', hprogram', htokens'⟩ := hprogram.respelled h
  obtain ⟨text, htext, hfinds'⟩ := hfinds.exists_respelled hy htokens'
  exact ⟨text, htext, ofSource_of_finds hfinds' hprogram' 0⟩

/-- Like sessions run a program and the program respelled alike. -/
theorem Alike.run_of_respelled {s t : Session} (h : s.Alike t) (hx : OrdinaryName x) (hy : OrdinaryName y)
    (hread : (Reading.ofSource source s.nextId).result = .ok body) (hbody : Resolves body)
    (hother : (Reading.ofSource text t.nextId).result = .ok other)
    (hr : Stmt.BodyRespelled x y [] [] body other) (bound : Nat) :
    Agree (fun e f s t => e = f ∧ (∃ failure, e = .failed failure) ∧ s.Alike t)
      (Session.run bound source) (Session.run bound text) s t fun _ _ s t => s.Alike t := by
  obtain ⟨found, hfound⟩ := hbody
  obtain ⟨more, hmore⟩ := hr.resolves (ordinary_of_ofSource hread) (ordinary_of_ofSource hother) ⟨found, hfound⟩
  have hu := prepared_of_resolve hread hfound
  have hv := prepared_of_resolve hother hmore
  have hframes : Frames.Exchange hx hy [.plain] [] [] := .outside
  refine .congr (run_of_resolve bound hread hfound) (run_of_resolve bound hother hmore) ?_
  exact (h.prepared hu hv).runCounterpart (hr.counterpart hframes (hu.placed h.left) (hv.placed h.right)
    (fun id hid => (hu.numbered.mem id hid).2) fun id hid => (hv.numbered.mem id hid).2) bound

/-- Local names do not matter. In a program that is accepted, let a scope have a local variable or a
parameter `x`, and let `y` be no keyword and no name of the program. When `x` is called `y` in this scope and
wherever it is referred to, the scope of the new program has `y`, and there is a text of the new program that
differs in the spelling of these names only. Every text of the new program is accepted, and in every session
both texts end in the same way: both do not end, both end normally, or both fail with the same error on the
same line. Afterwards the same has been printed and the global variables are the same. -/
theorem run_respelled (hread : (Reading.ofSource source 0).result = .ok body) (hbody : Resolves body)
    {way : Way} {scope : LocalScope} (hscope : Stmt.scopeIn? body way = some scope) (hx : scope.Has x)
    (hy : IsName y) (hfresh : y ∉ Stmt.namesAll body) :
    (∃ renamed, Stmt.scopeIn? (Stmt.respellAt x y way body) way = some renamed ∧ renamed.Has y) ∧
    (∃ text : String, Text.Respelled x y source.toList text.toList ∧
      Text.Reads text (Stmt.respellAt x y way body)) ∧
    ∀ text, Text.Reads text (Stmt.respellAt x y way body) → check text = .ok () ∧
      ∀ s : Session, s.Arises HostFunction.Uniform → ∀ bound, Agree
        (fun e f t u => e = f ∧ (∃ failure, e = .failed failure) ∧ t.ShowsSame u)
        (run bound source) (run bound text) s s fun _ _ t u => t.ShowsSame u := by
  obtain ⟨found, hfound⟩ := hbody
  have hordinary := ordinary_of_ofSource hread
  have hnumbered := (program_of_ofSource hread).2
  have hplaced := (placed_of_resolve hfound hordinary hnumbered.nodup ∅ fun _ _ => by simp).1
  have hnames := (hplaced.scopeIn? body hscope).ordinaryName hx
  have hrespelled := Stmt.respellAt_respelled hordinary hplaced hscope hx hfresh
  refine ⟨Stmt.scopeIn?_respellAt hscope hx, exists_text_respelled hy hread hrespelled, fun text htext => ?_⟩
  -- What is read, here and in a session, differs from the respelled tree in numbers only.
  obtain ⟨other, hother, hlike⟩ := htext
  have hsame : StmtsAlike .upToNodes body body := Stmt.all_alike_self (fun _ => rfl) body fun _ _ => trivial
  have hr := hrespelled.alike hsame hlike
  refine ⟨check_eq_ok_iff.2 ⟨other, hother, hr.resolves hordinary (ordinary_of_ofSource hother) ⟨found, hfound⟩⟩,
    fun s hs bound => ?_⟩
  obtain ⟨body', hbody', hlikes, hlikes'⟩ := ofSource_alike hread s.nextId
  obtain ⟨other', hother', -, hothers⟩ := ofSource_alike hother s.nextId
  have hagree := hs.alike.run_of_respelled hnames hy.ordinaryName hbody'
    ((resolves_congr hlikes).1 ⟨found, hfound⟩) hother' (hr.alike hlikes' hothers) bound
  refine hagree.imp (fun _ _ t u halike => halike.showsSame) ?_
  rintro e f t u ⟨he, hfailed, halike⟩
  exact ⟨he, hfailed, halike.showsSame⟩

/-- A variable of a block. -/
theorem run_respelled_block :
    ∃ body scope, (Reading.ofSource "{ var a = 1; print a; }" 0).result = .ok body ∧ Resolves body ∧
      Stmt.scopeIn? body [.into] = some scope ∧ scope.Has "a" ∧ IsName "b" ∧ "b" ∉ Stmt.namesAll body ∧
      (∃ renamed, Stmt.scopeIn? (Stmt.respellAt "a" "b" [.into] body) [.into] = some renamed ∧
        renamed.Has "b") ∧
      (∃ text : String, Text.Respelled "a" "b" "{ var a = 1; print a; }".toList text.toList ∧
        Text.Reads text (Stmt.respellAt "a" "b" [.into] body)) ∧
      ∀ text, Text.Reads text (Stmt.respellAt "a" "b" [.into] body) → check text = .ok () := by
  have hcheck : check "{ var a = 1; print a; }" = .ok () := by decide +kernel
  obtain ⟨body, hread, hresolves⟩ := check_eq_ok_iff.1 hcheck
  let one : Expr := .literal (.number (numeralValue ['1'] []))
  let scope : LocalScope := ⟨[], [.var ⟨"a", 1⟩ (some one), .print (.reference ⟨0, ⟨"a", 1⟩⟩)]⟩
  have hshape : (Reading.ofSource "{ var a = 1; print a; }" 0).result = .ok [.block scope.body] := by
    decide +kernel
  obtain rfl : [.block scope.body] = body := Except.ok.inj (hshape.symm.trans hread)
  have hscope : Stmt.scopeIn? [.block scope.body] [.into] = some scope := rfl
  have hx : scope.Has "a" := .inr ⟨⟨"a", 1⟩, _, List.mem_cons_self, rfl⟩
  have hy : IsName "b" := ⟨⟨'b', [], rfl, by decide, List.forall_mem_nil _⟩, by decide⟩
  have hfresh : "b" ∉ Stmt.namesAll [.block scope.body] := by
    simp [scope, one, Stmt.namesAll, Stmt.names, Expr.names?, Expr.names]
  obtain ⟨hrenamed, htext, htexts⟩ := run_respelled hread hresolves hscope hx hy hfresh
  exact ⟨_, scope, hread, hresolves, hscope, hx, hy, hfresh, hrenamed, htext,
    fun text h => (htexts text h).1⟩

end Session

end Lox
