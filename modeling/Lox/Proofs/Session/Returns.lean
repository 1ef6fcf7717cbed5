import Lox.Proofs.Evaluation.Returns
import Lox.Proofs.Resolution.Violations
import Lox.Proofs.Session.Regimes
import Lox.Proofs.Syntax.Equality

/-!
# Returns stay in their calls

No return statement of an accepted program stands outside a function, so a statement at the top
level ends normally or fails. Inside a function it ends the innermost call and nothing else.
-/

namespace Lox

/-! ### Accepted programs -/

namespace Surroundings

variable {around : Surroundings}

/-- There is no function around the place. -/
def Outside (around : Surroundings) : Prop := ∀ name role, .function name role ∉ around

theorem Outside.scope (h : around.Outside) (names : List String) :
    Outside (.scope names :: around) := by
  intro name role hmem
  cases hmem with
  | tail _ hmem => exact h name role hmem

theorem Outside.after (h : around.Outside) (s : Stmt) : (around.after s).Outside := by
  unfold Surroundings.after
  split
  · unfold Surroundings.declare
    split
    · intro name role hmem
      cases hmem with
      | tail _ hmem => exact h name role (.tail _ hmem)
    · exact h
  · exact h

end Surroundings

namespace Stmt

variable {line : Nat} {value : Option Expr}

mutual

/-- A return statement outside the functions of a statement that is itself in none is a place
outside any function. -/
theorem exists_site {around : Surroundings} {s : Stmt} (h : (line, value) ∈ s.ownReturns)
    (ho : around.Outside) :
    ∃ outside : Surroundings, outside.Outside ∧
      ⟨.ret value.isSome, line, outside⟩ ∈ s.sites around := by
  match s with
  | ret _ _ =>
    rw [ownReturns] at h
    cases List.mem_singleton.1 h
    exact ⟨around, ho, by rw [sites]; exact .head _⟩
  | block body =>
    rw [sites]
    exact exists_site_all h (ho.scope [])
  | conditional condition thenBranch none =>
    obtain ⟨outside, houtside, hmem⟩ := exists_site (s := thenBranch) h ho
    rw [sites]
    exact ⟨outside, houtside, List.mem_append_right _ hmem⟩
  | conditional condition thenBranch (some elseBranch) =>
    rw [ownReturns] at h
    rw [sites]
    rcases List.mem_append.1 h with h | h
    · obtain ⟨outside, houtside, hmem⟩ := exists_site h ho
      exact ⟨outside, houtside, List.mem_append_left _ (List.mem_append_right _ hmem)⟩
    · obtain ⟨outside, houtside, hmem⟩ := exists_site h ho
      exact ⟨outside, houtside, List.mem_append_right _ hmem⟩
  | whileLoop condition body =>
    rw [ownReturns] at h
    obtain ⟨outside, houtside, hmem⟩ := exists_site h ho
    rw [sites]
    exact ⟨outside, houtside, List.mem_append_right _ hmem⟩
  | expression _ | print _ | var _ _ | function _ | classDef _ _ _ => cases h

theorem exists_site_all {around : Surroundings} {body : List Stmt}
    (h : (line, value) ∈ ownReturnsAll body) (ho : around.Outside) :
    ∃ outside : Surroundings, outside.Outside ∧
      ⟨.ret value.isSome, line, outside⟩ ∈ sitesAll around body := by
  match body with
  | [] => cases h
  | s :: rest =>
    rw [ownReturnsAll] at h
    rw [sitesAll]
    rcases List.mem_append.1 h with h | h
    · obtain ⟨outside, houtside, hmem⟩ := exists_site h ho
      exact ⟨outside, houtside, List.mem_append_left _ hmem⟩
    · obtain ⟨outside, houtside, hmem⟩ := exists_site_all h (ho.after s)
      exact ⟨outside, houtside, List.mem_append_right _ hmem⟩

end

/-- A program that resolves has no return statement outside its functions. -/
theorem ownReturnsAll_eq_nil {body : List Stmt} (ho : OrdinaryAll body)
    {found : List (NodeId × Nat)} (h : resolve body = .ok found) : ownReturnsAll body = [] := by
  rw [List.eq_nil_iff_forall_not_mem]
  rintro ⟨line, value⟩ hmem
  have hstart : Surroundings.Outside [] := nofun
  obtain ⟨outside, houtside, hsite⟩ := exists_site_all hmem hstart
  exact (resolves_iff_obeys ho).1 ⟨found, h⟩ _ hsite _ (.returnOutsideFunction houtside)

theorem ownReturns_subset_all {body : List Stmt} {s : Stmt} (h : s ∈ body) :
    s.ownReturns ⊆ ownReturnsAll body := by
  induction body with
  | nil => cases h
  | cons first rest ih =>
    rw [ownReturnsAll]
    rcases List.mem_cons.1 h with rfl | h
    · exact List.subset_append_left _ _
    · exact List.subset_append_of_subset_right _ (ih h)

end Stmt

/-! ### Calls of initializers -/

namespace Function

open Procedure Run

/-- The innermost scope of a closure is read without going outwards. -/
theorem getAt?_closure {f : Function} {s : Store Value} {value : Value}
    (h : s.get? f.closure.scope "this" = some value) : f.closure.getAt? s 0 "this" = some value := h

/-- An initializer runs its body and then gives the instance that it is bound to, which it always finds.
-/
theorem enter_initializer_eq {r : Regime} {f : Function} {n : Nat} {arguments : List Value}
    {line : Nat} {m : Machine} {object : Instance}
    (hc : Configuration.Under r ⟨n + 1, m, .entry f arguments line⟩) (hinit : f.isInitializer = true)
    (hlocal : 0 < f.closure.scope)
    (hthis : m.store.get? f.closure.scope "this" = some (.ofInstance object)) :
    f.enter (n + 1) arguments line m =
      (callBody n f arguments >>= fun _ => pure (.ofInstance object)) m := by
  obtain ⟨hm, hf, harguments⟩ := hc
  rw [enter_succ, bind_apply, bind_apply]
  cases hbody : callBody n f arguments m with
  | ok completion after =>
    have hretains := (((abidesAt r n).callBody f hm hf harguments).of_ok hbody).2.1
    have hlater : after.store.get? f.closure.scope "this" = some (.ofInstance object) :=
      hretains.get? _ _ _ hlocal not_ordinary_this hthis
    simp only [callResult, hinit, if_true]
    rw [bind_apply, Procedure.read, getAt?_closure hlater]
  | error e after => rfl
  | exhausted => rfl

/-- However its body ends, an initializer gives the instance that it is bound to. -/
theorem enter_initializer {r : Regime} {f : Function} {n : Nat} {arguments : List Value}
    {line : Nat} {m last : Machine} {result : Value} {object : Instance}
    (hc : Configuration.Under r ⟨n, m, .entry f arguments line⟩) (hinit : f.isInitializer = true)
    (hlocal : 0 < f.closure.scope)
    (hthis : m.store.get? f.closure.scope "this" = some (.ofInstance object))
    (h : f.enter n arguments line m = .ok result last) : result = .ofInstance object := by
  cases n with
  | zero => cases h
  | succ n =>
    rw [enter_initializer_eq hc hinit hlocal hthis] at h
    obtain ⟨completion, after, -, h⟩ := of_bind_ok h
    cases h
    rfl

end Function

namespace Session

/-- A return never escapes its call. In a program that is read and resolved without faults every
statement at the top level ends normally, if it does not fail, whatever machine it is run from. A
call of a function ends with the value of the one return statement that its body comes to, with
nothing done after it, or else with nil. And in every session whose host functions make no
functions, an initializer that is called is bound to an instance, which is what the call gives. -/
theorem returns_stay_in_calls :
    (∀ source firstId statements found,
      (Reading.ofSource source firstId).result = .ok statements → resolve statements = .ok found →
      ∀ s ∈ statements, ∀ bound m completion after,
        s.execute bound m = .ok completion after → completion = .normal) ∧
    (∀ (f : Function) bound arguments line m result last, f.isInitializer = false →
      f.enter (bound + 1) arguments line m = .ok result last →
      ∃ inner, last = { inner with environment := m.environment } ∧
        ((∃ r, (f.activation bound arguments m).ReturnsAt result inner r) ∨
          (f.activation bound arguments m).Quiet ∧ result = .nil)) ∧
    ∀ (s : Session) source bound n m f arguments line, s.Arises HostFunction.Passive →
      s.Does bound source ⟨n, m, .entry f arguments line⟩ → f.isInitializer = true →
      ∃ object, f.closure.getAt? m.store 0 "this" = some (.ofInstance object) ∧
        ∀ result last, f.enter n arguments line m = .ok result last →
          result = .ofInstance object := by
  refine ⟨?_, fun f bound arguments line m result last hinit h => f.enter_ok hinit h, ?_⟩
  · intro source firstId statements found hread hresolve s hs bound m completion after h
    have hnone := Stmt.ownReturnsAll_eq_nil (ordinary_of_ofSource hread) hresolve
    have hcompletes : Configuration.Completes completion after ⟨bound, m, .statement s⟩ := h
    refine hcompletes.eq_normal ?_
    exact List.subset_nil.1 (hnone ▸ Stmt.ownReturns_subset_all hs)
  · intro s source bound n m f arguments line hs hdoes hinit
    have hunder := under_of_does hs.under_ofReading (readsUnder_ofReading s source) hdoes
    obtain ⟨hlocal, object, hthis⟩ := hunder.2.1.2 hinit
    exact ⟨object, f.getAt?_closure hthis, fun result last h =>
      f.enter_initializer hunder hinit hlocal hthis h⟩

/-- A class whose initializer returns early, and a call of it. -/
theorem does_initializer :
    ∃ statements found n m f,
      (Reading.ofSource "class A { init() { return; } } A();" 0).result = .ok statements ∧
      resolve statements = .ok found ∧
      ((start ⟨0⟩).withOutput .unlimited).Does 6 "class A { init() { return; } } A();"
        ⟨n, m, .entry f [] 1⟩ ∧ f.isInitializer = true := by
  have hdefine : ∀ m : Machine, m.environment = .global → 0 < m.store.size → m.depths[0]? = none →
      ∃ (c : Class) (f : Function) (after : Machine),
        (Stmt.classDef ⟨"A", 1⟩ none [⟨⟨"init", 1⟩, [], [.ret 1 none]⟩]).execute 6 m =
          .ok .normal after ∧
        (Expr.reference ⟨0, ⟨"A", 1⟩⟩).evaluate 4 after = .ok (.ofClass c) after ∧
        c.initializer? = some f ∧ f.isInitializer = true ∧ c.arity = 0 ∧
        after.callDepth = m.callDepth ∧ after.maxCallDepth = m.maxCallDepth := by
    intro m henv hsize hnone
    have hlt : m.environment.scope < (m.store.put m.environment.scope "A" .nil).size := by
      rwa [Store.size_put, henv]
    refine ⟨⟨m.nextIdentity, "A", none, Machine.methodTable (m.nextIdentity + 1) m.environment
      [⟨⟨"init", 1⟩, [], [.ret 1 none]⟩]⟩, _, _, rfl, Run.valueOf_global hnone ?_, rfl, rfl, rfl,
      rfl, rfl⟩
    exact (Machine.global?_eq _ _).trans
      ((Store.get?_put _ _ _ _ _ hlt).trans (if_pos ⟨henv ▸ rfl, rfl⟩))
  have hread : (Reading.ofSource "class A { init() { return; } } A();" 0).result =
      .ok [.classDef ⟨"A", 1⟩ none [⟨⟨"init", 1⟩, [], [.ret 1 none]⟩],
        .expression (.call (.reference ⟨0, ⟨"A", 1⟩⟩) [] 1)] := by decide +kernel
  have hresolve : resolve [.classDef ⟨"A", 1⟩ none [⟨⟨"init", 1⟩, [], [.ret 1 none]⟩],
      .expression (.call (.reference ⟨0, ⟨"A", 1⟩⟩) [] 1)] = .ok [] := by decide +kernel
  have hnone : (Std.HashMap.insertMany ((start ⟨0⟩).withOutput .unlimited).machine.depths
      ([] : List (NodeId × Nat)))[0]? = none := by decide +kernel
  obtain ⟨c, f, after, hclass, hcallee, hinit, hf, harity, hcalls, hmost⟩ := hdefine
    ⟨((start ⟨0⟩).withOutput .unlimited).machine.store, .empty, 0, .global, 0, 255, _,
      ((start ⟨0⟩).withOutput .unlimited).machine.hostFunctions, .unlimited⟩
    rfl Nat.one_pos hnone
  have hdepth : after.callDepth < after.maxCallDepth := by
    rw [hcalls, hmost]
    decide
  exact ⟨_, _, _, _, _, hread, hresolve, ⟨_, _, hread, hresolve,
    .head (.restOfProgram hclass) <| .head .firstOfProgram <| .head .expression <|
      .head (.call hcallee rfl (congrArg some harity) hdepth) <|
        .head (.initializer rfl hinit rfl) .refl⟩, hf⟩

theorem returns_stay_in_calls_early :
    (∃ statements,
      (Reading.ofSource "class A { init() { return; } } A();" 0).result = .ok statements ∧
      ∀ s ∈ statements, ∀ bound m completion after,
        s.execute bound m = .ok completion after → completion = .normal) ∧
    (∃ last inner : Machine,
      Function.enter 3 ⟨0, ⟨⟨"f", 1⟩, [], [.ret 1 none]⟩, .global, false⟩ [] 1 .empty =
        .ok .nil last ∧ last = { inner with environment := .global }) ∧
    ∃ n m f object, ((start ⟨0⟩).withOutput .unlimited).Does 6 "class A { init() { return; } } A();"
        ⟨n, m, .entry f [] 1⟩ ∧
      f.closure.getAt? m.store 0 "this" = some (.ofInstance object) ∧
      ∀ result last, f.enter n [] 1 m = .ok result last → result = .ofInstance object := by
  obtain ⟨statements, found, n, m, f, hread, hresolve, hdoes, hf⟩ := does_initializer
  obtain ⟨hnormal, hcall, hinitializer⟩ := returns_stay_in_calls
  refine ⟨⟨statements, hread, hnormal _ 0 statements found hread hresolve⟩, ?_, ?_⟩
  · obtain ⟨inner, hlast, -⟩ :=
      hcall ⟨0, ⟨⟨"f", 1⟩, [], [.ret 1 none]⟩, .global, false⟩ 2 [] 1 .empty
      .nil _ rfl rfl
    exact ⟨_, inner, rfl, hlast⟩
  · obtain ⟨object, hthis, hresult⟩ :=
      hinitializer _ _ 6 n m f [] 1 (.start ⟨0⟩ .unlimited) hdoes hf
    exact ⟨n, m, f, object, hdoes, hthis, hresult⟩

end Session

end Lox
