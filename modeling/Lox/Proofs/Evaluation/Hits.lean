import Lox.Proofs.Evaluation.Reach
import Lox.Proofs.Evaluation.Soundness

/-!
# References hit

In every part of a run from a sound machine, the scope that resolution found for a reference is
there and binds the name.
-/

namespace Lox

open Procedure Run

/-- The scope `depth` scopes further out is there and binds the name to the value. -/
structure Machine.BindsAt (m : Machine) (depth : Nat) (name : String) (value : Value) : Prop where
  reach : depth < m.environment.chain.length
  getAt? : m.environment.getAt? m.store depth name = some value

/-- The references at the root of an expression hit: a recorded depth leads to a scope that binds
the name. An assignment finds its variable also after its value was evaluated. What `super` needs
is always there. -/
def Expr.Hits (m : Machine) : Expr → Prop
  | .reference target => ∀ depth, m.depths[target.id]? = some depth →
      ∃ value, m.BindsAt depth target.name.text value
  | .assign target value => ∀ depth, m.depths[target.id]? = some depth →
      (∃ old, m.BindsAt depth target.name.text old) ∧
      ∀ n a after, value.evaluate n m = .ok a after →
        after.depths[target.id]? = some depth ∧ ∃ old, after.BindsAt depth target.name.text old
  | .this id _ => ∃ depth object, m.depths[id]? = some depth ∧
      m.BindsAt depth "this" (.ofInstance object)
  | .super id _ _ => ∃ depth c object, m.depths[id]? = some (depth + 1) ∧
      m.BindsAt (depth + 1) "super" (.ofClass c) ∧ m.BindsAt depth "this" (.ofInstance object)
  | _ => True

/-- The references of a task hit. An initializer finds its instance when its body has ended. -/
def Configuration.Hits : Configuration → Prop
  | ⟨_, m, .expression e⟩ => e.Hits m
  | ⟨n + 1, m, .entry f arguments _⟩ => f.isInitializer = true → ∀ completion after,
      callBody n f arguments m = .ok completion after →
        ∃ object, f.closure.getAt? after.store 0 "this" = some (.ofInstance object)
  | _ => True

/-- The task can be done from here: its machine is sound and its references are placed. -/
def Configuration.Sound (depths : Depths) (limit : NodeId) : Configuration → Prop
  | ⟨_, m, .expression e⟩ => ∃ names, m.Ready depths limit names ∧ e.Placed depths names
  | ⟨_, m, .arguments es⟩ => ∃ names, m.Ready depths limit names ∧ Expr.PlacedAll depths names es
  | ⟨_, m, .application callee arguments _⟩ => m.Sound depths limit ∧
      callee.Sound depths limit m.store ∧
      (∀ argument ∈ arguments, argument.Sound depths limit m.store) ∧
      callee.arity? = some arguments.length
  | ⟨_, m, .entry f arguments _⟩ => m.Sound depths limit ∧ f.Callable depths limit m.store ∧
      (∀ argument ∈ arguments, argument.Sound depths limit m.store) ∧ arguments.length = f.arity
  | ⟨_, m, .statement s⟩ => ∃ names, m.Ready depths limit names ∧ s.Coded depths limit names
  | ⟨_, m, .statements body⟩ => ∃ names, m.Ready depths limit names ∧
      Stmt.CodedAll depths limit names body
  | ⟨_, m, .loop condition body⟩ => ∃ names, m.Ready depths limit names ∧
      condition.Placed depths names ∧ body.Coded depths limit names ∧ body.declared? = none
  | ⟨_, m, .program statements⟩ => m.Ready depths limit [] ∧
      Stmt.CodedAll depths limit [] statements

section

variable {depths : Depths} {limit : NodeId} {names : ScopeNames} {m after : Machine}

theorem Run.Keeps.of_ok {α : Type} {x : Run α} {P : α → Store Value → Prop} {a : α}
    (h : Keeps depths limit m x P) (ho : x m = .ok a after) :
    m.Follows depths limit after ∧ P a after.store := by
  unfold Keeps at h
  rw [ho] at h
  exact h

theorem Machine.Ready.evaluate {e : Expr} {n : Nat} {value : Value}
    (h : m.Ready depths limit names) (hp : e.Placed depths names)
    (ho : e.evaluate n m = .ok value after) :
    after.Ready depths limit names ∧ m.store.Extends after.store ∧
      value.Sound depths limit after.store := by
  obtain ⟨hm, hv⟩ := ((keepsSound depths limit n).evaluate e h hp).of_ok ho
  exact ⟨h.follows hm, hm.store, hv⟩

theorem Machine.Ready.execute {s : Stmt} {n : Nat} {completion : Completion}
    (h : m.Ready depths limit names) (hs : s.Coded depths limit names)
    (ho : s.execute n m = .ok completion after) : after.Ready depths limit (names.after s) := by
  obtain ⟨hm, -, hholds⟩ := ((keepsSound depths limit n).execute s h hs).of_ok ho
  exact ⟨hm.sound, hm.environment ▸ hholds⟩

/-- Every task that a sound one starts is sound. -/
theorem Configuration.Sound.starts {c d : Configuration} (h : c.Sound depths limit)
    (hcd : c.Starts d) : d.Sound depths limit := by
  cases hcd with
  | inner | operand | getObject => exact h
  | left | decider | callee | setObject | firstArgument =>
    obtain ⟨names, hready, hp⟩ := h
    exact ⟨names, hready, hp.1⟩
  | right hfirst | undecided hfirst | arguments hfirst | setValue hfirst | otherArguments hfirst =>
    obtain ⟨names, hready, hp⟩ := h
    exact ⟨names, (hready.evaluate hp.1 hfirst).1, hp.2⟩
  | assigned =>
    obtain ⟨names, hready, hp⟩ := h
    exact ⟨names, hready, hp.2.2⟩
  | call hcallee harguments harity _ =>
    obtain ⟨names, hready, hp⟩ := h
    obtain ⟨hready, -, hc⟩ := hready.evaluate hp.1 hcallee
    obtain ⟨hm, hvalues⟩ :=
      ((keepsSound depths limit _).evaluateAll _ hready hp.2).of_ok harguments
    exact ⟨hm.sound.of_eq rfl rfl rfl rfl, hc.mono hm.store, hvalues, harity⟩
  | function =>
    obtain ⟨hm, hf, harguments, harity⟩ := h
    exact ⟨hm, hf, harguments, (Option.some.inj harity).symm⟩
  | initializer hobject hinit hbound =>
    obtain ⟨hm, hc, harguments, harity⟩ := h
    obtain ⟨h₁, hinstance⟩ := (Keeps.instantiate hm hc).of_ok hobject
    have hf := (Class.Every.findMethod? _ hc hinit).mono h₁.store
    obtain ⟨h₂, hcallable, hdeclaration⟩ := (Keeps.bindMethod h₁.sound hf hinstance).of_ok hbound
    refine ⟨h₂.sound, hcallable, fun argument hmem => ?_, ?_⟩
    · exact (harguments argument hmem).mono (h₁.store.trans h₂.store)
    · have hclass : Class.arity _ = _ := Option.some.inj harity
      rw [← hclass, Class.arity, hinit, Function.arity, hdeclaration]
      rfl
  | functionBody hframe =>
    obtain ⟨hm, ⟨names, hholds, hcoded, -⟩, harguments, harity⟩ := h
    obtain ⟨hf, hframe⟩ := (KeepsSound.frame hm hholds hcoded harguments harity).of_ok hframe
    exact ⟨_, ⟨hf.sound.of_eq rfl rfl rfl rfl, hframe⟩, hcoded.body⟩
  | expression | printed =>
    obtain ⟨names, hready, hs⟩ := h
    exact ⟨names, hready, hs.placed⟩
  | initial =>
    obtain ⟨names, hready, hs⟩ := h
    exact ⟨names, hready, hs.initial⟩
  | block hframe =>
    obtain ⟨names, hready, hs⟩ := h
    obtain ⟨hf, hframe⟩ := (KeepsSound.blockFrame hready.sound hready.environment).of_ok hframe
    exact ⟨_, ⟨hf.sound.of_eq rfl rfl rfl rfl, hframe⟩, hs.block⟩
  | condition =>
    obtain ⟨names, hready, hs⟩ := h
    exact ⟨names, hready, hs.thenBranch.1⟩
  | thenBranch hcondition _ =>
    obtain ⟨names, hready, hs⟩ := h
    obtain ⟨hp, hthen, -⟩ := hs.thenBranch
    exact ⟨names, (hready.evaluate hp hcondition).1, hthen⟩
  | elseBranch hcondition _ =>
    obtain ⟨names, hready, hs⟩ := h
    exact ⟨names, (hready.evaluate hs.thenBranch.1 hcondition).1, hs.elseBranch.1⟩
  | whileLoop =>
    obtain ⟨names, hready, hs⟩ := h
    exact ⟨names, hready, hs.loop⟩
  | result =>
    obtain ⟨names, hready, hs⟩ := h
    exact ⟨names, hready, hs.placed _ rfl⟩
  | superclass =>
    obtain ⟨names, hready, hs⟩ := h
    exact ⟨names, hready, hs.placed.2.2.1⟩
  | firstStatement =>
    obtain ⟨names, hready, hb⟩ := h
    exact ⟨names, hready, hb.cons.1⟩
  | otherStatements hfirst =>
    obtain ⟨names, hready, hb⟩ := h
    exact ⟨_, hready.execute hb.cons.1 hfirst, hb.cons.2⟩
  | loopCondition =>
    obtain ⟨names, hready, hc, -⟩ := h
    exact ⟨names, hready, hc⟩
  | loopBody hcondition _ =>
    obtain ⟨names, hready, hc, hb, -⟩ := h
    exact ⟨names, (hready.evaluate hc hcondition).1, hb⟩
  | nextRound hcondition _ hbody =>
    obtain ⟨names, hready, hc, hb, hd⟩ := h
    have hnext := (hready.evaluate hc hcondition).1.execute hb hbody
    rw [KeepsSound.after_of_declared hd] at hnext
    exact ⟨names, hnext, hc, hb, hd⟩
  | firstOfProgram => exact ⟨[], h.1, h.2.cons.1⟩
  | restOfProgram hfirst =>
    have hnext := h.1.execute h.2.cons.1 hfirst
    have hrest := h.2.cons.2
    rw [ScopeNames.after_nil] at hnext hrest
    exact ⟨hnext, hrest⟩

/-- Every part of a sound task is sound. -/
theorem Configuration.Sound.reaches {c d : Configuration} (h : c.Sound depths limit)
    (hcd : c.Reaches d) : d.Sound depths limit := by
  induction hcd with
  | refl => exact h
  | tail _ hstep ih => exact ih.starts hstep

theorem Machine.Ready.bindsAt (h : m.Ready depths limit names) {depth : Nat} {name : String}
    (hd : names.depth? name = some depth) :
    ∃ value, m.BindsAt depth name value ∧ Suits name value := by
  obtain ⟨outer, value, hancestor, hvalue, hsuits⟩ := h.environment.ancestor? hd
  refine ⟨value, ⟨?_, ?_⟩, hsuits⟩
  · by_contra hlt
    rw [Environment.ancestor?_eq_none_iff.2 (Nat.not_lt.1 hlt)] at hancestor
    cases hancestor
  · rw [Environment.getAt?, hancestor]
    exact hvalue

theorem Configuration.Sound.expression_hits {n : Nat} {e : Expr}
    (h : Configuration.Sound depths limit ⟨n, m, .expression e⟩) : e.Hits m := by
  obtain ⟨names, hready, hp⟩ := h
  cases e with
  | reference target =>
    intro depth hd
    rw [hready.sound.recorded, show depths target.id = _ from hp] at hd
    obtain ⟨value, hbinds, -⟩ := hready.bindsAt hd
    exact ⟨value, hbinds⟩
  | assign target value =>
    intro depth hd
    obtain ⟨-, hplaced, hvalue⟩ := hp
    rw [hready.sound.recorded, hplaced] at hd
    obtain ⟨old, hbinds, -⟩ := hready.bindsAt hd
    refine ⟨⟨old, hbinds⟩, fun n a after ho => ?_⟩
    have hafter := (hready.evaluate hvalue ho).1
    obtain ⟨now, hnow, -⟩ := hafter.bindsAt hd
    exact ⟨by rw [hafter.sound.recorded, hplaced, hd], now, hnow⟩
  | this id line =>
    obtain ⟨depth, hthis, hid⟩ := hp
    obtain ⟨value, hbinds, hsuits⟩ := hready.bindsAt hthis
    obtain ⟨object, rfl⟩ := hsuits.this rfl
    exact ⟨depth, object, by rw [hready.sound.recorded, hid], hbinds⟩
  | super id line method =>
    obtain ⟨depth, hthis, hsuper, hid⟩ := hp
    obtain ⟨value, hbinds, hsuits⟩ := hready.bindsAt hthis
    obtain ⟨object, rfl⟩ := hsuits.this rfl
    obtain ⟨value, hbinds', hsuits'⟩ := hready.bindsAt hsuper
    obtain ⟨c, rfl⟩ := hsuits'.super rfl
    exact ⟨depth, c, object, by rw [hready.sound.recorded, hid], hbinds', hbinds⟩
  | _ => trivial

/-- The instance is in the scope around an initializer for good. -/
theorem Configuration.Sound.entry_hits {n : Nat} {f : Function} {arguments : List Value}
    {line : Nat} (h : Configuration.Sound depths limit ⟨n + 1, m, .entry f arguments line⟩) :
    Configuration.Hits ⟨n + 1, m, .entry f arguments line⟩ := by
  intro hinit completion after ho
  obtain ⟨hm, hf, harguments, harity⟩ := h
  have hfollows := (((keepsSound depths limit n).callBody f hm hf harguments harity).of_ok ho).1
  obtain ⟨names, hholds, -, hthis⟩ := hf
  obtain ⟨outer, rfl⟩ := hthis hinit
  have hd : ScopeNames.depth? (["this"] :: outer) "this" = some 0 :=
    ScopeNames.depth?_cons_of_mem (List.mem_singleton_self _)
  obtain ⟨env, value, hancestor, hvalue, hsuits⟩ := (hholds.mono hfollows.store).ancestor? hd
  obtain ⟨object, rfl⟩ := hsuits.this rfl
  refine ⟨object, ?_⟩
  rw [Environment.getAt?, hancestor]
  exact hvalue

/-- The references of a sound task hit. -/
theorem Configuration.Sound.hits {c : Configuration} (h : c.Sound depths limit) : c.Hits := by
  obtain ⟨n, m, task⟩ := c
  cases task with
  | expression e => exact h.expression_hits
  | entry f arguments line =>
    cases n with
    | zero => trivial
    | succ n => exact h.entry_hits
  | _ => trivial

end

end Lox
