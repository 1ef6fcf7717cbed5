import Lox.Proofs.Evaluation.Children
import Lox.Proofs.Evaluation.Names
import Lox.Proofs.Session.Chronicle

/-!
# Names in the scopes of a session

In a session whose texts assign to no local variable in its own initial value, only declarations add
names to scopes.

## Main results

* `statements_keep_names`: what a statement leaves as it is in the scopes that are there before it.
-/

namespace Lox

open Procedure

/-! ### Functions of the host -/

namespace Machine

variable {depths : Depths} {limit : NodeId} {m : Machine} {name : String}

theorem Sound.register (h : m.Sound depths limit) (hname : OrdinaryName name) (arity : Nat)
    {f : HostFunction} (hf : f.Passive) : (m.register name arity f).Sound depths limit := by
  have hstore : m.Follows depths limit
      (m.defineGlobal name (.native ⟨m.hostFunctions.size, name, arity⟩)) :=
    h.put h.global hname trivial
  refine ⟨h.recorded, hstore.sound.store, hstore.sound.fields, hstore.sound.global, ?_⟩
  intro g hg
  rcases Array.mem_push.1 hg with hg | rfl
  · exact h.hostFunctions g hg
  · exact hf

theorem tidy_empty : Machine.empty.Tidy := by
  have hnone : ∀ scope name, Machine.empty.store.get? scope name = none := by
    intro scope name
    cases scope with
    | zero => rfl
    | succ scope => rfl
  refine ⟨fun scope => .inl fun name _ => hnone scope name, Nat.one_pos, ?_⟩
  rintro ⟨name, -, hbinds⟩
  rw [Store.binds, hnone] at hbinds
  cases hbinds

theorem Tidy.congr {other : Machine} (h : m.Tidy) (hstore : other.store = m.store)
    (henv : other.environment = m.environment) : other.Tidy := by
  constructor
  · rw [hstore]
    exact h.apart
  · rw [hstore, henv]
    exact h.lt
  · rw [hstore, henv]
    exact h.free

/-- A function of the host with an ordinary name may be made known between two texts. -/
theorem Tidy.register (h : m.Tidy) (henv : m.environment = .global) (hname : OrdinaryName name)
    (arity : Nat) (f : HostFunction) : (m.register name arity f).Tidy := by
  have hkeeps := Keeps.define m hname (.native ⟨m.hostFunctions.size, name, arity⟩)
  refine (hkeeps.tidy h).congr ?_ rfl
  rw [henv]
  rfl

end Machine

namespace Configuration

/-- The machine after this task, if it is a statement that declares nothing and the first local scope
binds `this`. -/
def besideThis? : Configuration → Option Machine
  | ⟨n, m, .statement stmt⟩ =>
    if stmt.declared? = none ∧ m.store.binds 1 "this" = true then (stmt.execute n m).state? else none
  | _ => none

theorem exists_of_besideThis? {c : Configuration} {after : Machine} (h : c.besideThis? = some after) :
    ∃ n m stmt, c = ⟨n, m, .statement stmt⟩ ∧ stmt.declared? = none ∧
      m.store.binds 1 "this" = true ∧ (stmt.execute n m).state? = some after := by
  unfold besideThis? at h
  split at h
  · next n m stmt =>
    split at h
    · next hboth => exact ⟨n, m, stmt, rfl, hboth.1, hboth.2, h⟩
    · cases h
  · cases h

end Configuration

namespace Session

/-- A session that comes about from a new one by making passive functions of the host known under
ordinary names and by running texts that assign to no local variable in its own initial value, each to
its end or until it fails or is turned down. -/
inductive ArisesFree : Session → Prop where
  | start (now : Number) (output : Output) : ArisesFree ((start now).withOutput output)
  | register {s : Session} {name : String} (arity : Nat) {f : HostFunction} (before : ArisesFree s)
      (hname : OrdinaryName name) (hf : f.Passive) :
      ArisesFree { s with machine := s.machine.register name arity f }
  | run {s t : Session} {bound : Nat} {source : String} (before : ArisesFree s)
      (hfree : s.SelfAssignFree source) (hrun : (Session.run bound source s).state? = some t) :
      ArisesFree t

variable {s t u : Session} {bound : Nat} {source : String} {statements : List Stmt}

/-- A prepared program is sound. -/
theorem Sound.program (h : s.Sound) (hfree : s.SelfAssignFree source)
    (hread : (Reading.ofSource source s.nextId).result = .ok statements)
    (hp : Prepared s source statements u) (bound : Nat) :
    Configuration.Sound (u.machine.depths[·]?) u.nextId ⟨bound, u.machine, .program statements⟩ :=
  ⟨h.ready hp, h.coded hp (hfree _ hread)⟩

theorem Sound.register {name : String} (h : s.Sound) (hname : OrdinaryName name) (arity : Nat)
    {f : HostFunction} (hf : f.Passive) :
    Session.Sound { s with machine := s.machine.register name arity f } :=
  ⟨h.machine.register hname arity hf, h.environment, h.unnumbered⟩

theorem Prepared.tidy (hp : Prepared s source statements u) (h : s.machine.Tidy) :
    u.machine.Tidy := by
  obtain ⟨found, -, hmachine⟩ := hp.machine
  rw [hmachine]
  exact h.congr rfl rfl

/-- However the run of a text ends, the scopes of `this` and `super` are apart after it. -/
theorem tidy_of_run (hs : s.Sound) (h : s.machine.Tidy) (hfree : s.SelfAssignFree source)
    (hrun : (run bound source s).state? = some t) : t.machine.Tidy := by
  rcases cases_of_run hrun with ⟨k, -, rfl⟩ | ⟨statements, u, m, hread, hp, hm, rfl⟩
  · exact h
  · have hkeeps := (hs.program hfree hread hp bound).endsIn_keeps
    exact (hkeeps m hm).tidy (hp.tidy h)

namespace ArisesFree

theorem sound (h : s.ArisesFree) : s.Sound := by
  induction h with
  | start now output => exact .start now output
  | register arity _ hname hf ih => exact ih.register hname arity hf
  | run _ hfree hrun ih => exact ih.run hfree hrun

theorem tidy (h : s.ArisesFree) : s.machine.Tidy := by
  induction h with
  | start now output =>
    have hname : OrdinaryName "clock" := ⟨nofun, nofun⟩
    exact (Machine.tidy_empty.register rfl hname 0 (Host.clock now)).congr rfl rfl
  | register arity hbefore hname _ ih => exact ih.register hbefore.sound.environment hname arity _
  | run hbefore hfree hrun ih => exact tidy_of_run hbefore.sound ih hfree hrun

end ArisesFree

/-- Only declarations add names to a scope. In every session that comes about, whatever statement the
run of one more text comes to, and however this statement ends: if it is not itself a declaration, all
scopes that were there before it, wherever they are held, bind the same names after it; and in any case,
those that bind `this` or `super` are the same as before. -/
theorem statements_keep_names (hs : s.ArisesFree) (hfree : s.SelfAssignFree source) {n : Nat}
    {m after : Machine} {stmt : Stmt} (hdoes : s.Does bound source ⟨n, m, .statement stmt⟩)
    (hafter : (stmt.execute n m).state? = some after) :
    (stmt.declared? = none → ∀ scope < m.store.size, ∀ name,
      after.store.binds scope name = m.store.binds scope name) ∧
    ∀ scope < m.store.size,
      m.store.binds scope "this" = true ∨ m.store.binds scope "super" = true →
        after.store.scope scope = m.store.scope scope := by
  obtain ⟨statements, found, hread, hresolve, hreach⟩ := hdoes
  have hp := prepared_of_resolve hread hresolve
  have hprogram := hs.sound.program hfree hread hp bound
  have htidy : m.Tidy := hprogram.reaches_tidy (hp.tidy hs.tidy) hreach
  have hkeeps := (hprogram.reaches hreach).endsIn_keeps after hafter
  refine ⟨fun hd scope hlt name => ?_, fun scope hlt hbinds => ?_⟩
  · exact hkeeps.binds scope hlt (fun hdeclares => absurd hd hdeclares) name
  · have hreserved : m.store.Reserved scope := by
      rcases hbinds with hthis | hsuper
      · exact ⟨"this", not_ordinary_this, hthis⟩
      · exact ⟨"super", not_ordinary_super, hsuper⟩
    exact (hkeeps.settled htidy).2 scope hlt hreserved

/-- A statement in a method. -/
theorem statements_keep_names_method :
    ∃ (s : Session) (source : String) (bound n : Nat) (m after : Machine) (stmt : Stmt),
      s.ArisesFree ∧ s.SelfAssignFree source ∧ s.Does bound source ⟨n, m, .statement stmt⟩ ∧
      (stmt.execute n m).state? = some after ∧ stmt.declared? = none ∧
      (∀ name, after.store.binds 0 name = m.store.binds 0 name) ∧
      m.store.binds 1 "this" = true ∧ after.store.scope 1 = m.store.scope 1 := by
  have hfree : ((start ⟨0⟩).withOutput .unlimited).SelfAssignFree
      "class A { m() { 1; } } A().m();" := by decide +kernel
  have hdoes : ((((start ⟨0⟩).withOutput .unlimited).program? 9
      "class A { m() { 1; } } A().m();").bind fun program =>
        (program.descend? [1, 0, 0, 2, 0, 0, 0]).bind (·.besideThis?)).isSome = true := by
    decide +kernel
  obtain ⟨after, hafter⟩ := Option.isSome_iff_exists.1 hdoes
  obtain ⟨program, hprogram, hafter⟩ := Option.bind_eq_some_iff.1 hafter
  obtain ⟨c, hc, hafter⟩ := Option.bind_eq_some_iff.1 hafter
  obtain ⟨n, m, stmt, rfl, hd, hthis, hafter⟩ := Configuration.exists_of_besideThis? hafter
  have hdoes := does_iff_exists_program.2 ⟨program, hprogram, Configuration.reaches_of_descend? hc⟩
  obtain ⟨hnames, hreserved⟩ := statements_keep_names (.start ⟨0⟩ .unlimited) hfree hdoes hafter
  obtain ⟨object, hobject⟩ := Option.isSome_iff_exists.1 hthis
  have hlt : 1 < m.store.size := Store.Extends.get?_lt hobject
  exact ⟨_, _, _, n, m, after, stmt, .start ⟨0⟩ .unlimited, hfree, hdoes, hafter, hd,
    hnames hd 0 (Nat.lt_of_succ_lt hlt), hthis, hreserved 1 hlt (.inl hthis)⟩

end Session

end Lox
