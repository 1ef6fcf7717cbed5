import Lox.Proofs.Evaluation.Keeping
import Lox.Proofs.Evaluation.Steps

/-!
# Evaluation keeps the heap sound

Whatever is evaluated from a sound machine, with its references placed among the scopes of the
environment, leaves a sound machine behind, and its value is sound. So the closures that a run makes
keep for good the scopes that resolution promised them.
-/

namespace Lox

open Procedure

variable {depths : Depths} {limit : NodeId} {names : ScopeNames} {m : Machine}

/-- A statement that was placed among these scopes, with node numbers below `limit`. -/
structure Stmt.Coded (depths : Depths) (limit : NodeId) (names : ScopeNames) (s : Stmt) : Prop where
  placed : s.Placed depths names
  selfAssignFree : s.SelfAssignFree (!names.isEmpty)
  nodes : ∀ id ∈ s.nodes, id < limit

/-- Statements that were placed among these scopes one after the other. -/
structure Stmt.CodedAll (depths : Depths) (limit : NodeId) (names : ScopeNames)
    (body : List Stmt) : Prop where
  placed : Stmt.PlacedAll depths names body
  selfAssignFree : Stmt.SelfAssignFreeAll (!names.isEmpty) body
  nodes : ∀ id ∈ Stmt.nodesAll body, id < limit

theorem ScopeNames.isEmpty_after (names : ScopeNames) (s : Stmt) :
    (names.after s).isEmpty = names.isEmpty := by
  unfold ScopeNames.after
  split
  · cases names <;> rfl
  · rfl

namespace Stmt.CodedAll

theorem cons {s : Stmt} {rest : List Stmt} (h : CodedAll depths limit names (s :: rest)) :
    s.Coded depths limit names ∧ CodedAll depths limit (names.after s) rest := by
  have hnodes := h.nodes
  rw [Stmt.nodesAll, List.forall_mem_append] at hnodes
  refine ⟨⟨h.placed.1, h.selfAssignFree.1, hnodes.1⟩, h.placed.2, ?_, hnodes.2⟩
  rw [ScopeNames.isEmpty_after]
  exact h.selfAssignFree.2

end Stmt.CodedAll

namespace Stmt.Coded

theorem block {body : List Stmt} (h : (Stmt.block body).Coded depths limit names) :
    CodedAll depths limit ([] :: names) body := ⟨h.placed, h.selfAssignFree, h.nodes⟩

theorem thenBranch {condition : Expr} {thenBranch : Stmt} {elseBranch : Option Stmt}
    (h : (conditional condition thenBranch elseBranch).Coded depths limit names) :
    condition.Placed depths names ∧ thenBranch.Coded depths limit names ∧
      thenBranch.declared? = none := by
  obtain ⟨hplaced, hfree, hnodes⟩ := h
  cases elseBranch with
  | none =>
    rw [Stmt.nodes, List.forall_mem_append] at hnodes
    exact ⟨hplaced.1, ⟨hplaced.2.2, hfree, hnodes.2⟩, hplaced.2.1⟩
  | some elseBranch =>
    simp only [Stmt.nodes, List.forall_mem_append] at hnodes
    exact ⟨hplaced.1, ⟨hplaced.2.1.2, hfree.1, hnodes.1.2⟩, hplaced.2.1.1⟩

theorem elseBranch {condition : Expr} {thenBranch elseBranch : Stmt}
    (h : (conditional condition thenBranch (some elseBranch)).Coded depths limit names) :
    elseBranch.Coded depths limit names ∧ elseBranch.declared? = none := by
  obtain ⟨hplaced, hfree, hnodes⟩ := h
  simp only [Stmt.nodes, List.forall_mem_append] at hnodes
  exact ⟨⟨hplaced.2.2.2, hfree.2, hnodes.2⟩, hplaced.2.2.1⟩

theorem loop {condition : Expr} {body : Stmt}
    (h : (whileLoop condition body).Coded depths limit names) :
    condition.Placed depths names ∧ body.Coded depths limit names ∧ body.declared? = none := by
  have hnodes := h.nodes
  rw [Stmt.nodes, List.forall_mem_append] at hnodes
  exact ⟨h.placed.1, ⟨h.placed.2.2, h.selfAssignFree, hnodes.2⟩, h.placed.2.1⟩

theorem function {declaration : FunctionDef}
    (h : (Stmt.function declaration).Coded depths limit names) :
    declaration.Coded depths limit (names.declare declaration.name.text) :=
  ⟨h.placed.2.2, h.selfAssignFree, h.nodes⟩

/-- An initial value does not need the name of its variable. -/
theorem initial {name : Identifier} {e : Expr}
    (h : (var name (some e)).Coded depths limit names) : e.Placed depths names := by
  obtain ⟨hname, -, he⟩ := h.placed
  obtain ⟨hplaced, hreads⟩ := he e rfl
  cases names with
  | nil => exact hplaced
  | cons scope outer =>
    exact Expr.Placed.of_declare hname e hplaced (hreads (by simp)) (h.selfAssignFree rfl e rfl)

end Stmt.Coded

theorem coded_of_mem_methods {methods : List FunctionDef}
    (hp : Stmt.PlacedMethods depths names methods) (hf : Stmt.SelfAssignFreeMethods methods)
    (hn : ∀ id ∈ Stmt.methodNodes methods, id < limit) :
    ∀ declaration ∈ methods, declaration.Coded depths limit names := by
  induction methods with
  | nil => exact List.forall_mem_nil _
  | cons declaration rest ih =>
    rw [Stmt.methodNodes, List.forall_mem_append] at hn
    rw [List.forall_mem_cons]
    exact ⟨⟨hp.1, hf.1, hn.1⟩, ih hp.2 hf.2 hn.2⟩

theorem FunctionDef.Coded.body {declaration : FunctionDef}
    (h : declaration.Coded depths limit names) :
    Stmt.CodedAll depths limit (declaration.paramNames.reverse :: names) declaration.body := by
  obtain ⟨name, params, body⟩ := declaration
  exact ⟨h.placed.2.2, h.selfAssignFree, h.nodes⟩

theorem FunctionDef.Coded.params {declaration : FunctionDef}
    (h : declaration.Coded depths limit names) :
    declaration.paramNames.Nodup ∧ ∀ name ∈ declaration.paramNames, OrdinaryName name := by
  obtain ⟨name, params, body⟩ := declaration
  refine ⟨h.placed.1, fun name hname => ?_⟩
  obtain ⟨param, hparam, rfl⟩ := List.mem_map.1 hname
  exact h.placed.2.1 param hparam

/-- What a table of these entries holds is one of them. -/
theorem Table.mem_of_get?_ofList {α : Type} {entries : List (String × α)} {name : String}
    {value : α} (h : (Table.ofList entries).get? name = some value) : (name, value) ∈ entries := by
  have general : ∀ t : Table α,
      (entries.foldl (fun t entry => t.insert entry.1 entry.2) t).get? name = some value →
      (name, value) ∈ entries ∨ t.get? name = some value := by
    clear h
    induction entries with
    | nil => exact fun t h => .inr h
    | cons entry rest ih =>
      intro t h
      rcases ih _ h with hmem | hget
      · exact .inl (.tail _ hmem)
      · rw [Table.get?_insert] at hget
        split at hget
        · next he =>
          cases hget
          exact .inl (he ▸ .head _)
        · exact .inr hget
  exact (general Table.empty h).resolve_right nofun

/-- Every parameter has its argument. -/
theorem exists_get?_zip {α : Type} {keys : List String} {values : List α}
    (hlen : values.length = keys.length) {name : String} (hname : name ∈ keys) :
    ∃ value, (Table.ofList (keys.zip values)).get? name = some value := by
  refine Option.isSome_iff_exists.1 ((Table.contains_ofList_iff _ name).2 ?_)
  rw [List.map_fst_zip (by omega)]
  exact hname

/-- The value that a returning statement gives is sound. -/
def Completion.Sound (depths : Depths) (limit : NodeId) (s : Store Value) : Completion → Prop
  | .normal => True
  | .returned value => value.Sound depths limit s

/-- What evaluation with the bound `n` keeps. -/
structure KeepsSound (depths : Depths) (limit : NodeId) (n : Nat) : Prop where
  evaluate : ∀ {m names} (e : Expr), m.Ready depths limit names → e.Placed depths names →
    Run.Keeps depths limit m (e.evaluate n) fun value store => value.Sound depths limit store
  evaluateAll : ∀ {m names} (es : List Expr), m.Ready depths limit names →
    Expr.PlacedAll depths names es →
    Run.Keeps depths limit m (evaluateAll n es) fun values store =>
      ∀ value ∈ values, value.Sound depths limit store
  apply : ∀ {m} (callee : Value) (arguments : List Value) (line : Nat), m.Sound depths limit →
    callee.Sound depths limit m.store →
    (∀ argument ∈ arguments, argument.Sound depths limit m.store) →
    callee.arity? = some arguments.length →
    Run.Keeps depths limit m (callee.apply n arguments line) fun value store =>
      value.Sound depths limit store
  enter : ∀ {m} (f : Function) (arguments : List Value) (line : Nat), m.Sound depths limit →
    f.Callable depths limit m.store →
    (∀ argument ∈ arguments, argument.Sound depths limit m.store) →
    arguments.length = f.arity →
    Run.Keeps depths limit m (f.enter n arguments line) fun value store =>
      value.Sound depths limit store
  execute : ∀ {m names} (s : Stmt), m.Ready depths limit names → s.Coded depths limit names →
    Run.Keeps depths limit m (s.execute n) fun completion store =>
      completion.Sound depths limit store ∧ m.environment.Holds store (names.after s)
  executeAll : ∀ {m names} (body : List Stmt), m.Ready depths limit names →
    Stmt.CodedAll depths limit names body →
    Run.Keeps depths limit m (executeAll n body) fun completion store =>
      completion.Sound depths limit store
  repeatWhile : ∀ {m names} (condition : Expr) (body : Stmt), m.Ready depths limit names →
    condition.Placed depths names → body.Coded depths limit names → body.declared? = none →
    Run.Keeps depths limit m (repeatWhile n condition body) fun completion store =>
      completion.Sound depths limit store

namespace KeepsSound

open Run

variable {n : Nat}

theorem sound_of_apply {operator : UnaryOperator} {a value : Value} {s : Store Value}
    (h : operator.apply a = .ok value) : value.Sound depths limit s := by
  unfold UnaryOperator.apply at h
  split at h <;> cases h <;> trivial

theorem sound_of_applyTwo {operator : BinaryOperator} {a b value : Value} {s : Store Value}
    (h : operator.apply a b = .ok value) : value.Sound depths limit s := by
  unfold BinaryOperator.apply at h
  split at h <;> cases h <;> trivial

theorem succ_evaluate (ih : KeepsSound depths limit n) (e : Expr)
    (h : m.Ready depths limit names) (hp : e.Placed depths names) :
    Keeps depths limit m (e.evaluate (n + 1)) fun value store =>
      value.Sound depths limit store := by
  cases e with
  | literal value =>
    rw [Expr.evaluate]
    exact Keeps.pure h.sound (by cases value <;> trivial)
  | grouping inner =>
    rw [Expr.evaluate]
    exact ih.evaluate inner h hp
  | unary operator operand line =>
    rw [Expr.evaluate]
    refine Keeps.bind (ih.evaluate operand h hp) fun a after hm ha => ?_
    exact Keeps.located hm.sound fun value hv => sound_of_apply hv
  | binary left operator right line =>
    rw [Expr.evaluate]
    refine Keeps.bind (ih.evaluate left h hp.1) fun a after hm ha => ?_
    refine Keeps.bind (ih.evaluate right (h.follows hm) hp.2) fun b later hl hb => ?_
    exact Keeps.located hl.sound fun value hv => sound_of_applyTwo hv
  | logical left operator right =>
    rw [Expr.evaluate]
    refine Keeps.bind (ih.evaluate left h hp.1) fun a after hm ha => ?_
    split
    · exact Keeps.pure hm.sound ha
    · exact ih.evaluate right (h.follows hm) hp.2
  | reference target =>
    rw [Expr.evaluate]
    exact Keeps.valueOf h.sound _ _ _
  | assign target value =>
    rw [Expr.evaluate]
    obtain ⟨hname, hd, hv⟩ := hp
    refine Keeps.bind (ih.evaluate value h hv) fun a after hm ha => ?_
    refine Keeps.bind (Keeps.assign (h.follows hm) hname hd ha) fun _ later hl _ => ?_
    exact Keeps.pure hl.sound (ha.mono hl.store)
  | call callee arguments line =>
    rw [Expr.evaluate]
    refine Keeps.bind (ih.evaluate callee h hp.1) fun c after hm hc => ?_
    refine Keeps.bind (ih.evaluateAll arguments (h.follows hm) hp.2) fun values later hl hvalues => ?_
    have hc := hc.mono hl.store
    cases harity : c.arity? with
    | none => exact Keeps.raise hl.sound _ _
    | some arity =>
      simp only
      split
      · next hlen =>
        exact Keeps.asCall hl.sound
          (ih.apply c values line (hl.sound.of_eq rfl rfl rfl rfl) hc hvalues (hlen ▸ harity))
      · exact Keeps.raise hl.sound _ _
  | get object name =>
    rw [Expr.evaluate]
    refine Keeps.bind (ih.evaluate object h hp) fun a after hm ha => ?_
    split
    · exact Keeps.property hm.sound name ha
    · exact Keeps.raise hm.sound _ _
  | set object name value =>
    rw [Expr.evaluate]
    refine Keeps.bind (ih.evaluate object h hp.1) fun a after hm ha => ?_
    split
    · refine Keeps.bind (ih.evaluate value (h.follows hm) hp.2) fun b later hl hb => ?_
      refine Keeps.bind (Keeps.setField hl.sound _ _ hb) fun _ last hlast _ => ?_
      exact Keeps.pure hlast.sound (hb.mono hlast.store)
    · exact Keeps.raise hm.sound _ _
  | this id line =>
    rw [Expr.evaluate]
    exact Keeps.valueOf h.sound _ _ _
  | super id line method =>
    rw [Expr.evaluate]
    exact Keeps.superMethod h.sound _ _ _

theorem succ_evaluateAll (ih : KeepsSound depths limit n) (es : List Expr)
    (h : m.Ready depths limit names) (hp : Expr.PlacedAll depths names es) :
    Keeps depths limit m (Lox.evaluateAll (n + 1) es) fun values store =>
      ∀ value ∈ values, value.Sound depths limit store := by
  cases es with
  | nil => exact Keeps.pure h.sound nofun
  | cons e rest =>
    rw [Lox.evaluateAll]
    refine Keeps.bind (ih.evaluate e h hp.1) fun a after hm ha => ?_
    refine Keeps.bind (ih.evaluateAll rest (h.follows hm) hp.2) fun values later hl hvalues => ?_
    refine Keeps.pure hl.sound ?_
    rw [List.forall_mem_cons]
    exact ⟨ha.mono hl.store, hvalues⟩

theorem succ_apply (ih : KeepsSound depths limit n) (callee : Value) (arguments : List Value)
    (line : Nat) (h : m.Sound depths limit) (hc : callee.Sound depths limit m.store)
    (ha : ∀ argument ∈ arguments, argument.Sound depths limit m.store)
    (harity : callee.arity? = some arguments.length) :
    Keeps depths limit m (callee.apply (n + 1) arguments line) fun value store =>
      value.Sound depths limit store := by
  cases callee with
  | native f =>
    rw [Value.apply]
    exact Keeps.callHost h f line ha
  | function f =>
    rw [Value.apply]
    exact ih.enter f arguments line h hc ha (Option.some.inj harity).symm
  | ofClass c =>
    rw [Value.apply]
    refine Keeps.bind (Keeps.instantiate h hc) fun object after hm hobject => ?_
    cases hinit : c.initializer? with
    | none => exact Keeps.pure hm.sound hobject
    | some initializer =>
      have hc' : c.Every (Function.Bindable depths limit after.store) :=
        Class.Every.mono (fun _ hf => hf.mono hm.store) c hc
      have hbindable := Class.Every.findMethod? c hc' hinit
      have hlen : arguments.length = initializer.arity := by
        have hclass : c.arity = arguments.length := Option.some.inj harity
        rw [← hclass, Class.arity, hinit]
        rfl
      refine Keeps.bind (Keeps.bindMethod hm.sound hbindable hobject) fun bound later hl hbound => ?_
      · have hargs : ∀ argument ∈ arguments, argument.Sound depths limit later.store :=
          fun argument hmem => (ha argument hmem).mono (hm.store.trans hl.store)
        have harity : arguments.length = bound.arity := by
          rw [hlen, Function.arity, Function.arity, hbound.2]
        refine Keeps.bind (ih.enter bound arguments line hl.sound hbound.1 hargs harity)
          fun _ last hlast _ => ?_
        exact Keeps.pure hlast.sound (Class.Every.mono
          (fun _ hf => hf.mono (hl.store.trans hlast.store)) object.ofClass hobject)
  | _ =>
    rw [Value.apply]
    all_goals first | exact Keeps.raise h _ _ | nofun

theorem callResult (h : m.Sound depths limit) (f : Function) (line : Nat)
    {completion : Completion} (hc : completion.Sound depths limit m.store) :
    Keeps depths limit m (Run.callResult f line completion) fun value store =>
      value.Sound depths limit store := by
  unfold Run.callResult
  split
  · refine Keeps.bind (Keeps.read (P := fun object? store => ∀ object, object? = some object →
      object.Sound depths limit store) h fun object hobject => Keeps.sound_of_getAt? h hobject)
        fun object? after hm hobject => ?_
    cases object? with
    | some object => exact Keeps.pure hm.sound (hobject object rfl)
    | none => exact Keeps.raise hm.sound _ _
  · cases completion with
    | returned value => exact Keeps.pure h hc
    | normal => exact Keeps.pure h trivial

/-- The scope of a block binds nothing yet. -/
theorem blockFrame (h : m.Sound depths limit) {env : Environment}
    (hholds : env.Holds m.store names) :
    Keeps depths limit m (Run.newScope env ∅) fun frame store => frame.Holds store ([] :: names) :=
  Keeps.newScope h hholds (fun _ _ hv => by cases hv) (List.forall_mem_nil _)

/-- The scope of a call binds the parameters. -/
theorem frame (h : m.Sound depths limit) {f : Function} {arguments : List Value}
    (hholds : f.closure.Holds m.store names) (hcoded : f.declaration.Coded depths limit names)
    (ha : ∀ argument ∈ arguments, argument.Sound depths limit m.store)
    (hlen : arguments.length = f.arity) :
    Keeps depths limit m
      (Run.newScope f.closure (.ofList (f.declaration.paramNames.zip arguments)))
      fun frame store => frame.Holds store (f.declaration.paramNames.reverse :: names) := by
  refine Keeps.newScope h hholds (fun name value hv => ?_) fun name hname => ?_
  · exact ha value (List.of_mem_zip (Table.mem_of_get?_ofList hv)).2
  · rw [List.mem_reverse] at hname
    have hkeys : arguments.length = f.declaration.paramNames.length := by
      rw [hlen, Function.arity, FunctionDef.paramNames, List.length_map]
    obtain ⟨value, hvalue⟩ := exists_get?_zip hkeys hname
    exact ⟨value, hvalue, (hcoded.params.2 name hname).suits value⟩

theorem callBody (ih : KeepsSound depths limit n) (f : Function) {arguments : List Value}
    (h : m.Sound depths limit) (hf : f.Callable depths limit m.store)
    (ha : ∀ argument ∈ arguments, argument.Sound depths limit m.store)
    (hlen : arguments.length = f.arity) :
    Keeps depths limit m (Run.callBody n f arguments) fun completion store =>
      completion.Sound depths limit store := by
  obtain ⟨names, hholds, hcoded, -⟩ := hf
  refine Keeps.bind (frame h hholds hcoded ha hlen) fun frame after hm hframe => ?_
  have hready : Machine.Ready depths limit { after with environment := frame }
      (f.declaration.paramNames.reverse :: names) := ⟨hm.sound.of_eq rfl rfl rfl rfl, hframe⟩
  exact Keeps.inEnvironment (ih.executeAll _ hready hcoded.body)

theorem succ_enter (ih : KeepsSound depths limit n) (f : Function) (arguments : List Value)
    (line : Nat) (h : m.Sound depths limit) (hf : f.Callable depths limit m.store)
    (ha : ∀ argument ∈ arguments, argument.Sound depths limit m.store)
    (hlen : arguments.length = f.arity) :
    Keeps depths limit m (f.enter (n + 1) arguments line) fun value store =>
      value.Sound depths limit store := by
  rw [Function.enter_succ]
  exact Keeps.bind (ih.callBody f h hf ha hlen) fun completion after hm hc =>
    callResult hm.sound f line hc

theorem initialValue (ih : KeepsSound depths limit n) (h : m.Ready depths limit names)
    {value : Option Expr} (hp : ∀ e ∈ value, e.Placed depths names) :
    Keeps depths limit m (Run.initialValue n value) fun value store =>
      value.Sound depths limit store := by
  cases value with
  | none => exact Keeps.pure h.sound trivial
  | some e => exact ih.evaluate e h (hp e rfl)

theorem superclass? (h : m.Sound depths limit) (superclass : Option Reference) :
    Keeps depths limit m (Run.superclass? superclass) fun c? store =>
      (c?.isSome = superclass.isSome) ∧
        ∀ c, c? = some c → c.Every (Function.Bindable depths limit store) := by
  cases superclass with
  | none => exact Keeps.pure h ⟨rfl, nofun⟩
  | some target =>
    refine Keeps.bind (Keeps.valueOf h _ _ _) fun value after hm hv => ?_
    cases value with
    | ofClass c =>
      refine Keeps.pure hm.sound ⟨rfl, ?_⟩
      rintro _ ⟨⟩
      exact hv
    | _ => exact Keeps.raise hm.sound _ _

/-- The scopes around the methods of a class, without that of `this`. -/
def methodNames (superclass : Option Reference) (names : ScopeNames) : ScopeNames :=
  match superclass with
  | some _ => ["super"] :: names
  | none => names

theorem methodClosure (h : m.Ready depths limit names) {superclass : Option Reference}
    {c? : Option Class} (hsome : c?.isSome = superclass.isSome)
    (hc : ∀ c, c? = some c → c.Every (Function.Bindable depths limit m.store)) :
    Keeps depths limit m (Run.methodClosure c?) fun closure store =>
      closure.Holds store (methodNames superclass names) := by
  refine Keeps.bind (Keeps.read (P := fun env store => env.Holds store names) h.sound
    h.environment) fun outside after hm houtside => ?_
  cases superclass with
  | none =>
    cases c? with
    | none => exact Keeps.pure hm.sound houtside
    | some c => cases hsome
  | some target =>
    cases c? with
    | none => cases hsome
    | some c =>
      refine Keeps.newScope hm.sound houtside ?_ ?_
      · intro name value hv
        rw [Table.get?_ofList_singleton] at hv
        split at hv
        · cases hv
          exact Class.Every.mono (fun _ hf => hf.mono hm.store) c (hc c rfl)
        · cases hv
      · intro name hname
        obtain rfl := List.mem_singleton.1 hname
        refine ⟨.ofClass c, ?_, fun he => absurd he (by decide), fun _ => ⟨c, rfl⟩⟩
        rw [Table.get?_ofList_singleton, if_pos rfl]

theorem every_methodTable {closure : Environment} {s : Store Value} {methods : List FunctionDef}
    (id : Nat) (hclosure : closure.Holds s names)
    (hcoded : ∀ declaration ∈ methods, declaration.Coded depths limit (["this"] :: names)) :
    (Machine.methodTable id closure methods).Every (Function.Bindable depths limit s) := by
  intro name f hf
  obtain ⟨i, hi, he⟩ := List.mem_mapIdx.1 (Table.mem_of_get?_ofList hf)
  cases he
  exact ⟨names, hclosure, hcoded _ (List.getElem_mem hi)⟩

theorem coded_methods {name : Identifier} {superclass : Option Reference}
    {methods : List FunctionDef}
    (h : (Stmt.classDef name superclass methods).Coded depths limit names) :
    ∀ declaration ∈ methods, declaration.Coded depths limit
      (["this"] :: methodNames superclass (names.declare name.text)) := by
  have hnodes := h.nodes
  rw [Stmt.nodes, List.forall_mem_append] at hnodes
  cases superclass with
  | none => exact coded_of_mem_methods h.placed.2.2 h.selfAssignFree hnodes.2
  | some target => exact coded_of_mem_methods h.placed.2.2.2 h.selfAssignFree hnodes.2

theorem ordinary_of_classDef {name : Identifier} {superclass : Option Reference}
    {methods : List FunctionDef}
    (h : (Stmt.classDef name superclass methods).Placed depths names) :
    OrdinaryName name.text := by
  cases superclass with
  | none => exact h.1
  | some target => exact h.1

theorem after_of_declared {s : Stmt} (h : s.declared? = none) : names.after s = names := by
  rw [ScopeNames.after, h]

/-- A statement that declares nothing leaves the names as they are. -/
theorem keeps_same {s : Stmt} {x : Run Completion} (h : m.Ready depths limit names)
    (hd : s.declared? = none)
    (hx : Keeps depths limit m x fun completion store => completion.Sound depths limit store) :
    Keeps depths limit m x fun completion store =>
      completion.Sound depths limit store ∧ m.environment.Holds store (names.after s) := by
  rw [after_of_declared hd]
  unfold Keeps at *
  split
  · next ho =>
    rw [ho] at hx
    exact ⟨hx.1, hx.2, h.environment.mono hx.1.store⟩
  · next ho =>
    rw [ho] at hx
    exact hx
  · trivial

theorem succ_execute_classDef (name : Identifier) (superclass : Option Reference)
    (methods : List FunctionDef) (h : m.Ready depths limit names)
    (hs : (Stmt.classDef name superclass methods).Coded depths limit names) :
    Keeps depths limit m ((Stmt.classDef name superclass methods).execute (n + 1))
      fun completion store => completion.Sound depths limit store ∧
        m.environment.Holds store (names.declare name.text) := by
  have hname := ordinary_of_classDef hs.placed
  have hmethods := coded_methods hs
  rw [Stmt.execute_classDef]
  refine Keeps.bind (superclass? h.sound superclass) fun c? m₁ h₁ hc => ?_
  refine Keeps.bind (Keeps.define (v := .nil) (h.follows h₁) hname trivial)
    fun _ m₂ h₂ hholds => ?_
  have hready : m₂.Ready depths limit (names.declare name.text) :=
    ⟨h₂.sound, h₂.environment ▸ hholds⟩
  have hc₂ : ∀ c, c? = some c → c.Every (Function.Bindable depths limit m₂.store) :=
    fun c he => Class.Every.mono (fun _ hf => hf.mono h₂.store) c (hc.2 c he)
  refine Keeps.bind (methodClosure hready hc.1 hc₂) fun closure m₃ h₃ hclosure => ?_
  refine Keeps.bind (Keeps.freshIdentity h₃.sound (methods.length + 1)) fun id m₄ h₄ _ => ?_
  have htable := every_methodTable (id + 1) (hclosure.mono h₄.store) hmethods
  have hclass : Value.Sound depths limit m₄.store (.ofClass ⟨id, name.text, c?,
      Machine.methodTable (id + 1) closure methods⟩) := by
    cases c? with
    | none => exact htable
    | some c =>
      refine ⟨htable, Class.Every.mono (fun _ hf => hf.mono ?_) c (hc₂ c rfl)⟩
      exact h₃.store.trans h₄.store
  have hready₄ := (hready.follows h₃).follows h₄
  refine Keeps.bind (Keeps.define hready₄ hname hclass) fun _ m₅ h₅ _ => ?_
  refine Keeps.pure h₅.sound ⟨trivial, ?_⟩
  have hlast := (hready₄.follows h₅).environment
  rwa [h₅.environment, h₄.environment, h₃.environment, h₂.environment, h₁.environment] at hlast

theorem succ_execute (ih : KeepsSound depths limit n) (s : Stmt) (h : m.Ready depths limit names)
    (hs : s.Coded depths limit names) :
    Keeps depths limit m (s.execute (n + 1)) fun completion store =>
      completion.Sound depths limit store ∧ m.environment.Holds store (names.after s) := by
  cases s with
  | expression value =>
    refine keeps_same h rfl ?_
    rw [Stmt.execute]
    exact Keeps.bind (ih.evaluate value h hs.placed) fun _ after hm _ => Keeps.pure hm.sound trivial
  | print value =>
    refine keeps_same h rfl ?_
    rw [Stmt.execute]
    refine Keeps.bind (ih.evaluate value h hs.placed) fun a after hm _ => ?_
    refine Keeps.bind (Keeps.write hm.sound _ _) fun _ later hl _ => ?_
    refine Keeps.bind (Keeps.write hl.sound _ _) fun _ last hlast _ => ?_
    exact Keeps.pure hlast.sound trivial
  | var name initial =>
    rw [Stmt.execute_var]
    have hinitial : ∀ e ∈ initial, e.Placed depths names := by
      rintro e ⟨⟩
      exact hs.initial
    refine Keeps.bind (ih.initialValue h hinitial) fun value after hm hv => ?_
    have hready := h.follows hm
    refine Keeps.bind (Keeps.define hready hs.placed.1 hv) fun _ later hl hholds => ?_
    rw [hm.environment] at hholds
    exact Keeps.pure hl.sound ⟨trivial, hholds⟩
  | block body =>
    refine keeps_same h rfl ?_
    rw [Stmt.execute]
    refine Keeps.bind (Keeps.read (P := fun env store => env.Holds store names) h.sound
      h.environment) fun env after hm henv => ?_
    refine Keeps.bind (blockFrame hm.sound henv) fun frame later hl hframe => ?_
    have hready : Machine.Ready depths limit { later with environment := frame } ([] :: names) :=
      ⟨hl.sound.of_eq rfl rfl rfl rfl, hframe⟩
    exact Keeps.inEnvironment (ih.executeAll body hready hs.block)
  | conditional condition thenBranch elseBranch =>
    refine keeps_same h rfl ?_
    obtain ⟨hcondition, hthen, hdthen⟩ := hs.thenBranch
    rw [Stmt.execute_conditional]
    refine Keeps.bind (ih.evaluate condition h hcondition) fun a after hm _ => ?_
    have hready := h.follows hm
    split
    · exact (ih.execute thenBranch hready hthen).mono fun _ _ hc => hc.1
    · cases elseBranch with
      | none => exact Keeps.pure hm.sound trivial
      | some elseBranch =>
        exact (ih.execute elseBranch hready hs.elseBranch.1).mono fun _ _ hc => hc.1
  | whileLoop condition body =>
    refine keeps_same h rfl ?_
    obtain ⟨hcondition, hbody, hdbody⟩ := hs.loop
    rw [Stmt.execute]
    exact ih.repeatWhile condition body h hcondition hbody hdbody
  | function declaration =>
    rw [Stmt.execute]
    have hname := hs.placed.1
    refine Keeps.bind (Keeps.read (P := fun env _ => env = m.environment) h.sound rfl)
      fun closure after hm hclosure => ?_
    refine Keeps.bind (Keeps.freshIdentity hm.sound 1) fun id later hl _ => ?_
    have henv : later.environment = m.environment := hl.environment.trans hm.environment
    obtain rfl : closure = later.environment := hclosure.trans henv.symm
    -- The environment of the function is complete only when the function is in it.
    have hdefine := Keeps.define_recursive
      (v := .function ⟨id, declaration, later.environment, false⟩)
      ((h.follows hm).follows hl) hname fun hholds =>
        ⟨_, hholds, hs.function, fun hinit => absurd hinit Bool.false_ne_true⟩
    refine Keeps.bind hdefine fun _ last hlast hholds => ?_
    rw [henv] at hholds
    exact Keeps.pure hlast.sound ⟨trivial, hholds⟩
  | ret line value =>
    refine keeps_same h rfl ?_
    rw [Stmt.execute_ret]
    exact Keeps.bind (ih.initialValue h hs.placed) fun a after hm ha => Keeps.pure hm.sound ha
  | classDef name superclass methods => exact succ_execute_classDef name superclass methods h hs

theorem succ_executeAll (ih : KeepsSound depths limit n) (body : List Stmt)
    (h : m.Ready depths limit names) (hb : Stmt.CodedAll depths limit names body) :
    Keeps depths limit m (Lox.executeAll (n + 1) body) fun completion store =>
      completion.Sound depths limit store := by
  cases body with
  | nil => exact Keeps.pure h.sound trivial
  | cons s rest =>
    obtain ⟨hs, hrest⟩ := hb.cons
    rw [Lox.executeAll]
    refine Keeps.bind (ih.execute s h hs) fun completion after hm hc => ?_
    cases completion with
    | returned value => exact Keeps.pure hm.sound hc.1
    | normal => exact ih.executeAll rest ⟨hm.sound, hm.environment ▸ hc.2⟩ hrest

theorem succ_repeatWhile (ih : KeepsSound depths limit n) (condition : Expr) (body : Stmt)
    (h : m.Ready depths limit names) (hc : condition.Placed depths names)
    (hb : body.Coded depths limit names) (hd : body.declared? = none) :
    Keeps depths limit m (Lox.repeatWhile (n + 1) condition body) fun completion store =>
      completion.Sound depths limit store := by
  rw [Lox.repeatWhile]
  refine Keeps.bind (ih.evaluate condition h hc) fun a after hm _ => ?_
  split
  · refine Keeps.bind (ih.execute body (h.follows hm) hb) fun completion later hl hcompletion => ?_
    cases completion with
    | returned value => exact Keeps.pure hl.sound hcompletion.1
    | normal => exact ih.repeatWhile condition body ((h.follows hm).follows hl) hc hb hd
  · exact Keeps.pure hm.sound trivial

theorem succ (ih : KeepsSound depths limit n) : KeepsSound depths limit (n + 1) where
  evaluate := ih.succ_evaluate
  evaluateAll := ih.succ_evaluateAll
  apply := ih.succ_apply
  enter := ih.succ_enter
  execute := ih.succ_execute
  executeAll := ih.succ_executeAll
  repeatWhile := ih.succ_repeatWhile

theorem zero : KeepsSound depths limit 0 where
  evaluate _ _ _ := trivial
  evaluateAll _ _ _ := trivial
  apply _ _ _ _ _ _ _ := trivial
  enter _ _ _ _ _ _ _ := trivial
  execute _ _ _ := trivial
  executeAll _ _ _ := trivial
  repeatWhile _ _ _ _ _ _ := trivial

end KeepsSound

/-- Evaluation keeps machines sound, whatever its bound. -/
theorem keepsSound (depths : Depths) (limit : NodeId) (n : Nat) : KeepsSound depths limit n := by
  induction n with
  | zero => exact .zero
  | succ n ih => exact ih.succ

end Lox
