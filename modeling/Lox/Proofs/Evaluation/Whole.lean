import Lox.Proofs.Evaluation.Reach
import Lox.Proofs.Evaluation.ThinnedRuns

/-!
# Whole machines

A machine is whole if it is a thinned version of itself: all closures lead to scopes of its store, and
all code was placed in the scopes around it. Every part of a run from a whole machine finds a whole one.
-/

namespace Lox

open Procedure Run

/-- The machine is what is left of it when all scopes are kept. -/
def Machine.Whole (depths : Depths) (limit : NodeId) (names : ScopeNames) (m : Machine) : Prop :=
  m.ThinnedIn depths limit (List.range m.store.size) none names m

/-- The value can be used in the machine. -/
def Value.Whole (depths : Depths) (limit : NodeId) (m : Machine) (value : Value) : Prop :=
  value.Thinned depths limit (List.range m.store.size) value

/-- The function can be called in the machine. -/
def Function.Whole (depths : Depths) (limit : NodeId) (m : Machine) (f : Function) : Prop :=
  f.Thinned depths limit [] (List.range m.store.size) f

section

variable {α : Type} {depths : Depths} {limit : NodeId} {names inner : ScopeNames} {gap : Option Nat}
  {m after : Machine} {x : Run α} {P : List ScopeId → α → α → Prop} {a : α}

namespace Machine.Whole

theorem enter (h : m.Whole depths limit names) {env : Environment}
    (henv : env.Thinned (List.range m.store.size) none env) :
    Machine.Whole depths limit inner { m with environment := env } :=
  ⟨{ h.toThinned with }, henv, .none _⟩

/-- The names around the place do not matter to the machine. -/
theorem elsewhere (h : m.Whole depths limit names) : m.Whole depths limit inner :=
  ⟨h.toThinned, h.environment, .none _⟩

/-- Where a run ends, the machine is whole again and the result is thinned to itself. -/
theorem of_ok (h : m.Whole depths limit names)
    (hx : Thins depths limit (List.range m.store.size) m m x x P) (ho : x m = .ok a after) :
    after.Whole depths limit names ∧ m.store.size ≤ after.store.size ∧
      P (List.range after.store.size) a a := by
  rw [Thins, Agree, ho] at hx
  obtain ⟨later, hstay, hP⟩ := hx
  obtain rfl : later = List.range after.store.size := hstay.store.kept_eq_range rfl
  refine ⟨hstay.thinnedIn h, ?_, hP⟩
  have hle := hstay.le.length_le
  rwa [List.length_range, List.length_range] at hle

theorem of_state (h : m.Whole depths limit names)
    (hx : Thins depths limit (List.range m.store.size) m m x x P)
    (ho : (x m).state? = some after) : after.Whole depths limit names := by
  cases hrun : x m with
  | exhausted =>
    rw [hrun] at ho
    cases ho
  | ok a m' =>
    rw [hrun] at ho
    cases ho
    exact (h.of_ok hx hrun).1
  | error e m' =>
    rw [hrun] at ho
    cases ho
    rw [Thins, Agree, hrun] at hx
    obtain ⟨-, later, hstay⟩ := hx
    obtain rfl : later = List.range after.store.size := hstay.store.kept_eq_range rfl
    exact hstay.thinnedIn h

end Machine.Whole

theorem range_le_range {size larger : Nat} (h : size ≤ larger) :
    List.range size <+: List.range larger := by
  obtain ⟨more, rfl⟩ := Nat.exists_eq_add_of_le h
  rw [List.range_add]
  exact List.prefix_append _ _

theorem Value.Whole.grow {value : Value} (h : value.Whole depths limit m)
    (hle : m.store.size ≤ after.store.size) : value.Whole depths limit after :=
  Value.Thinned.mono h (range_le_range hle)

namespace Machine.Whole

variable {n : Nat}

theorem evaluate {e : Expr} {value : Value} (h : m.Whole depths limit names)
    (hp : e.Placed depths names) (ho : e.evaluate n m = .ok value after) :
    after.Whole depths limit names ∧ m.store.size ≤ after.store.size ∧
      value.Whole depths limit after :=
  h.of_ok ((runsThinned depths limit n).evaluate e h hp) ho

theorem execute {s : Stmt} {completion : Completion} (h : m.Whole depths limit names)
    (hs : s.PlacedBelow depths limit names) (ho : s.execute n m = .ok completion after) :
    after.Whole depths limit names :=
  (h.of_ok ((runsThinned depths limit n).execute s h hs nofun) ho).1

end Machine.Whole

end

/-- The task can be done from here: its machine is whole and its code was placed. -/
def Configuration.Whole (depths : Depths) (limit : NodeId) : Configuration → Prop
  | ⟨_, m, .expression e⟩ => ∃ names, m.Whole depths limit names ∧ e.Placed depths names
  | ⟨_, m, .arguments es⟩ => ∃ names, m.Whole depths limit names ∧ Expr.PlacedAll depths names es
  | ⟨_, m, .application callee arguments _⟩ => m.Whole depths limit [] ∧
      callee.Whole depths limit m ∧ ∀ argument ∈ arguments, argument.Whole depths limit m
  | ⟨_, m, .entry f arguments _⟩ => m.Whole depths limit [] ∧ f.Whole depths limit m ∧
      ∀ argument ∈ arguments, argument.Whole depths limit m
  | ⟨_, m, .statement s⟩ => ∃ names, m.Whole depths limit names ∧ s.PlacedBelow depths limit names
  | ⟨_, m, .statements body⟩ => ∃ names, m.Whole depths limit names ∧
      Stmt.PlacedAllBelow depths limit names body
  | ⟨_, m, .loop condition body⟩ => ∃ names, m.Whole depths limit names ∧
      condition.Placed depths names ∧ body.PlacedBelow depths limit names ∧ body.declared? = none
  | ⟨_, m, .program statements⟩ => m.Whole depths limit [] ∧
      Stmt.PlacedAllBelow depths limit [] statements

section

variable {depths : Depths} {limit : NodeId} {names : ScopeNames} {m : Machine}

/-- Values that can be used are thinned to themselves. -/
theorem valuesThinned_of_whole {values : List Value}
    (h : ∀ value ∈ values, value.Whole depths limit m) :
    ValuesThinned depths limit (List.range m.store.size) values values :=
  List.forall₂_same.2 h

/-- Every task that a whole one starts is whole. -/
theorem Configuration.Whole.starts {c d : Configuration} (h : c.Whole depths limit)
    (hcd : c.Starts d) : d.Whole depths limit := by
  cases hcd with
  | inner | operand | getObject => exact h
  | left | decider | callee | setObject | firstArgument =>
    obtain ⟨names, hm, hp⟩ := h
    exact ⟨names, hm, hp.1⟩
  | right hfirst | undecided hfirst | arguments hfirst | setValue hfirst | otherArguments hfirst =>
    obtain ⟨names, hm, hp⟩ := h
    exact ⟨names, (hm.evaluate hp.1 hfirst).1, hp.2⟩
  | assigned =>
    obtain ⟨names, hm, hp⟩ := h
    exact ⟨names, hm, hp.2.2⟩
  | call hcallee harguments harity _ =>
    obtain ⟨names, hm, hp⟩ := h
    obtain ⟨hm, -, hc⟩ := hm.evaluate hp.1 hcallee
    obtain ⟨hm, hle, hvalues⟩ :=
      hm.of_ok ((runsThinned depths limit _).evaluateAll _ hm hp.2) harguments
    refine ⟨⟨{ hm.toThinned with callDepth := rfl }, hm.environment, .none _⟩, hc.grow hle, ?_⟩
    intro argument hmem
    exact List.forall₂_same.1 hvalues argument hmem
  | function =>
    obtain ⟨hm, hf, harguments⟩ := h
    cases hf with | function hf => exact ⟨hm, hf, harguments⟩
  | initializer hobject hinit hbound =>
    obtain ⟨hm, hc, harguments⟩ := h
    cases hc with
    | ofClass hc =>
      obtain ⟨h₁, hle₁, hinstance⟩ := hm.of_ok (.instantiate hm.toThinned hc) hobject
      have hmethod := (Class.Thinned.mono hc (range_le_range hle₁)).findMethod? initializerName
      rw [show Class.findMethod? initializerName _ = _ from hinit] at hmethod
      cases hmethod with
      | some hf =>
        obtain ⟨h₂, hle₂, hf⟩ := h₁.of_ok (.bindMethod h₁ hf hinstance) hbound
        exact ⟨h₂, hf, fun argument hmem => (harguments argument hmem).grow (Nat.le_trans hle₁ hle₂)⟩
  | @functionBody _ _ f _ _ _ _ hframe =>
    obtain ⟨hm, hf, harguments⟩ := h
    -- All scopes are kept, so that the closure has no gap.
    obtain ⟨gap, outer, hclosure, -, hplaced, -⟩ := hf.closure
    have hbindings : Table.Alike .refl _ _ _ :=
      .zip (valuesThinned_of_whole harguments) f.declaration.paramNames
    rw [show Renaming.refl.apply = id from rfl, List.map_id] at hbindings
    obtain ⟨hm, -, henv⟩ := hm.of_ok (.newScope hm.toThinned hclosure.fill hbindings) hframe
    exact ⟨_, hm.enter henv, hplaced.body⟩
  | expression | printed =>
    obtain ⟨names, hm, hs⟩ := h
    exact ⟨names, hm, hs.placed⟩
  | initial =>
    obtain ⟨names, hm, hs⟩ := h
    exact ⟨_, hm.elsewhere, (hs.placed.2.2 _ rfl).1⟩
  | block hframe =>
    obtain ⟨names, hm, hs⟩ := h
    obtain ⟨hm, -, henv⟩ := hm.of_ok (.newScope hm.toThinned hm.environment .empty) hframe
    exact ⟨_, hm.enter henv, hs.block⟩
  | condition =>
    obtain ⟨names, hm, hs⟩ := h
    exact ⟨names, hm, hs.thenBranch.1⟩
  | thenBranch hcondition _ =>
    obtain ⟨names, hm, hs⟩ := h
    obtain ⟨hp, hthen, -⟩ := hs.thenBranch
    exact ⟨names, (hm.evaluate hp hcondition).1, hthen⟩
  | elseBranch hcondition _ =>
    obtain ⟨names, hm, hs⟩ := h
    exact ⟨names, (hm.evaluate hs.thenBranch.1 hcondition).1, hs.elseBranch.1⟩
  | whileLoop =>
    obtain ⟨names, hm, hs⟩ := h
    exact ⟨names, hm, hs.loop⟩
  | result =>
    obtain ⟨names, hm, hs⟩ := h
    exact ⟨names, hm, hs.placed _ rfl⟩
  | superclass =>
    obtain ⟨names, hm, hs⟩ := h
    exact ⟨names, hm, hs.placed.2.2.1⟩
  | firstStatement =>
    obtain ⟨names, hm, hb⟩ := h
    exact ⟨names, hm, hb.cons.1⟩
  | otherStatements hfirst =>
    obtain ⟨names, hm, hb⟩ := h
    exact ⟨_, (hm.execute hb.cons.1 hfirst).elsewhere, hb.cons.2⟩
  | loopCondition =>
    obtain ⟨names, hm, hc, -⟩ := h
    exact ⟨names, hm, hc⟩
  | loopBody hcondition _ =>
    obtain ⟨names, hm, hc, hb, -⟩ := h
    exact ⟨names, (hm.evaluate hc hcondition).1, hb⟩
  | nextRound hcondition _ hbody =>
    obtain ⟨names, hm, hc, hb, hd⟩ := h
    exact ⟨names, (hm.evaluate hc hcondition).1.execute hb hbody, hc, hb, hd⟩
  | firstOfProgram => exact ⟨[], h.1, h.2.cons.1⟩
  | restOfProgram hfirst =>
    have hrest := h.2.cons.2
    rw [ScopeNames.after_nil] at hrest
    exact ⟨h.1.execute h.2.cons.1 hfirst, hrest⟩

/-- Every part of a whole task is whole. -/
theorem Configuration.Whole.reaches {c d : Configuration} (h : c.Whole depths limit)
    (hcd : c.Reaches d) : d.Whole depths limit := by
  induction hcd with
  | refl => exact h
  | tail _ hstep ih => exact ih.starts hstep

end

end Lox
