import Lox.Proofs.Resolution.Placement

/-!
# The `super` expressions of a class

The `super` expressions that belong to the methods of a class are those outside the classes that are
declared inside these methods. Resolution records for each of them how many scopes lie between it and
the scope that the class declaration makes for `super`.
-/

namespace Lox

/-- What a `super` expression consists of. -/
structure SuperUse where
  id : NodeId
  line : Nat
  method : Identifier

namespace Expr

mutual

/-- The `super` expressions in an expression. -/
def supers : Expr → List SuperUse
  | literal _ | reference _ | this _ _ => []
  | unary _ operand _ => operand.supers
  | binary left _ right _ => left.supers ++ right.supers
  | logical left _ right => left.supers ++ right.supers
  | grouping inner => inner.supers
  | assign _ value => value.supers
  | call callee arguments _ => callee.supers ++ supersAll arguments
  | get object _ => object.supers
  | set object _ value => object.supers ++ value.supers
  | super id line method => [⟨id, line, method⟩]

def supersAll : List Expr → List SuperUse
  | [] => []
  | e :: rest => e.supers ++ supersAll rest

end

/-- Those in a value that may be missing. -/
def supers? : Option Expr → List SuperUse
  | some e => e.supers
  | none => []

end Expr

namespace Stmt

/-- A `super` expression with one more scope around it. -/
def deeper (p : SuperUse × Nat) : SuperUse × Nat := (p.1, p.2 + 1)

mutual

/-- The `super` expressions of a statement that belong to the class around it, each with the number of
scopes that the statement opens around it. -/
def supers : Stmt → List (SuperUse × Nat)
  | expression value => value.supers.map (·, 0)
  | print value => value.supers.map (·, 0)
  | var _ initial => (Expr.supers? initial).map (·, 0)
  | block body => (supersAll body).map deeper
  | conditional condition thenBranch none => condition.supers.map (·, 0) ++ thenBranch.supers
  | conditional condition thenBranch (some elseBranch) =>
    condition.supers.map (·, 0) ++ thenBranch.supers ++ elseBranch.supers
  | whileLoop condition body => condition.supers.map (·, 0) ++ body.supers
  | function declaration => functionSupers declaration
  | ret _ value => (Expr.supers? value).map (·, 0)
  | classDef _ _ _ => []

def supersAll : List Stmt → List (SuperUse × Nat)
  | [] => []
  | s :: rest => s.supers ++ supersAll rest

/-- Those of a function, whose body is in a scope of its own. -/
def functionSupers : FunctionDef → List (SuperUse × Nat)
  | ⟨_, _, body⟩ => (supersAll body).map deeper

end

/-- The `super` expressions that belong to a class with these methods, each with the number of scopes
between it and the scope of `super`, of which the scope of `this` is one. -/
def methodSupers (methods : List FunctionDef) : List (SuperUse × Nat) :=
  (methods.flatMap functionSupers).map deeper

theorem functionSupers_eq (f : FunctionDef) : functionSupers f = (supersAll f.body).map deeper := by
  obtain ⟨name, params, body⟩ := f
  rw [functionSupers]

theorem mem_methodSupers {methods : List FunctionDef} {f : FunctionDef} {p : SuperUse × Nat}
    (hf : f ∈ methods) (hp : p ∈ functionSupers f) : deeper p ∈ methodSupers methods :=
  List.mem_map_of_mem (List.mem_flatMap.2 ⟨f, hf, hp⟩)

end Stmt

/-- What is declared of a class beside its name. -/
structure ClassParts where
  superclass : Option Reference
  methods : List FunctionDef

namespace Stmt

mutual

/-- All classes that a statement declares, with those that are declared inside functions and methods. -/
def classes : Stmt → List ClassParts
  | expression _ | print _ | var _ _ | ret _ _ => []
  | block body => classesAll body
  | conditional _ thenBranch none => thenBranch.classes
  | conditional _ thenBranch (some elseBranch) => thenBranch.classes ++ elseBranch.classes
  | whileLoop _ body => body.classes
  | function declaration => functionClasses declaration
  | classDef _ superclass methods => ⟨superclass, methods⟩ :: methodClasses methods

def classesAll : List Stmt → List ClassParts
  | [] => []
  | s :: rest => s.classes ++ classesAll rest

def functionClasses : FunctionDef → List ClassParts
  | ⟨_, _, body⟩ => classesAll body

def methodClasses : List FunctionDef → List ClassParts
  | [] => []
  | f :: rest => functionClasses f ++ methodClasses rest

end

theorem functionClasses_eq (f : FunctionDef) : functionClasses f = classesAll f.body := by
  obtain ⟨name, params, body⟩ := f
  rw [functionClasses]

theorem mem_methodClasses {methods : List FunctionDef} {f : FunctionDef} {parts : ClassParts}
    (hf : f ∈ methods) (hp : parts ∈ functionClasses f) : parts ∈ methodClasses methods := by
  induction methods with
  | nil => cases hf
  | cons first rest ih =>
    rw [methodClasses]
    rcases List.mem_cons.1 hf with rfl | hf
    · exact List.mem_append_left _ hp
    · exact List.mem_append_right _ (ih hf)

end Stmt

/-- Only a class that inherits has `super` expressions, and their depths are recorded. -/
def ClassParts.Recorded (depths : Depths) (parts : ClassParts) : Prop :=
  ∀ p ∈ Stmt.methodSupers parts.methods,
    parts.superclass.isSome = true ∧ depths p.1.id = some p.2

/-! ### What resolution records -/

section

variable {depths : Depths} {names : ScopeNames} {name : String}

theorem Stmt.Placed.ordinary_declared {s : Stmt} (h : s.Placed depths names)
    (hs : s.declared? = some name) : OrdinaryName name := by
  match s with
  | .var _ _ | .function _ =>
    cases hs
    exact h.1
  | .classDef _ none _ | .classDef _ (some _) _ =>
    cases hs
    exact h.1
  | .expression _ | .print _ | .block _ | .conditional _ _ _ | .whileLoop _ _ | .ret _ _ => cases hs

/-- A declaration does not move `this` and `super`. -/
theorem Stmt.Placed.depth?_after {s : Stmt} (h : s.Placed depths names)
    (hname : ¬ OrdinaryName name) : (names.after s).depth? name = names.depth? name := by
  unfold ScopeNames.after
  split
  · next declared hs =>
    refine ScopeNames.depth?_declare_of_ne fun heq => hname ?_
    exact heq ▸ h.ordinary_declared hs
  · rfl

/-- In this place `this` is `t` scopes away, and `super` one more. -/
structure ScopeNames.SuperAt (names : ScopeNames) (t : Nat) : Prop where
  this : names.depth? "this" = some t
  super : names.depth? "super" = some (t + 1)

/-- Outside a scope that has neither name both are one scope less away. -/
theorem ScopeNames.SuperAt.of_cons {scope : List String}
    (hscope : ∀ key, ¬ OrdinaryName key → key ∉ scope) {t : Nat}
    (h : SuperAt (scope :: names) t) : ∃ u, t = u + 1 ∧ names.SuperAt u := by
  obtain ⟨hthis, hsuper⟩ := h
  rw [depth?_cons_of_not_mem (hscope _ fun h => h.1 rfl)] at hthis
  rw [depth?_cons_of_not_mem (hscope _ fun h => h.2 rfl)] at hsuper
  obtain ⟨u, hu, rfl⟩ := Option.map_eq_some_iff.1 hthis
  obtain ⟨v, hv, heq⟩ := Option.map_eq_some_iff.1 hsuper
  exact ⟨u, rfl, hu, hv.trans (congrArg some (Nat.succ.inj heq))⟩

theorem ScopeNames.SuperAt.of_declare {t : Nat} (hname : OrdinaryName name)
    (h : (names.declare name).SuperAt t) : names.SuperAt t where
  this := (depth?_declare_of_ne fun heq => hname.1 heq.symm).symm.trans h.this
  super := (depth?_declare_of_ne fun heq => hname.2 heq.symm).symm.trans h.super

/-- The depth of a `super` expression is recorded that has some more scopes around it. -/
def ScopeNames.Records (depths : Depths) (names : ScopeNames) (p : SuperUse × Nat) : Prop :=
  ∃ t, names.SuperAt t ∧ depths p.1.id = some (t + 1 + p.2)

theorem ScopeNames.Records.deeper {scope : List String}
    (hscope : ∀ key, ¬ OrdinaryName key → key ∉ scope) {p : SuperUse × Nat}
    (h : Records depths (scope :: names) p) : Records depths names (Stmt.deeper p) := by
  obtain ⟨t, ht, hd⟩ := h
  obtain ⟨u, rfl, hu⟩ := ht.of_cons hscope
  refine ⟨u, hu, hd.trans (congrArg some ?_)⟩
  simp only [Stmt.deeper]
  omega

theorem ScopeNames.Records.of_declare {p : SuperUse × Nat} (hname : OrdinaryName name)
    (h : Records depths (names.declare name) p) : Records depths names p := by
  obtain ⟨t, ht, hd⟩ := h
  exact ⟨t, ht.of_declare hname, hd⟩

mutual

theorem Expr.Placed.supers (e : Expr) (h : e.Placed depths names) :
    ∀ use ∈ e.supers, names.Records depths (use, 0) := by
  cases e with
  | literal | reference | this => exact nofun
  | unary _ operand => exact supers operand h
  | binary left _ right | logical left _ right =>
    rw [Expr.supers, List.forall_mem_append]
    exact ⟨supers left h.1, supers right h.2⟩
  | grouping inner => exact supers inner h
  | assign target value => exact supers value h.2.2
  | call callee arguments =>
    rw [Expr.supers, List.forall_mem_append]
    exact ⟨supers callee h.1, supersAll arguments h.2⟩
  | get object => exact supers object h
  | set object _ value =>
    rw [Expr.supers, List.forall_mem_append]
    exact ⟨supers object h.1, supers value h.2⟩
  | super id =>
    obtain ⟨depth, hthis, hsuper, hid⟩ := h
    intro _ hmem
    rw [List.mem_singleton.1 hmem]
    exact ⟨depth, ⟨hthis, hsuper⟩, hid⟩

theorem Expr.Placed.supersAll (es : List Expr) (h : Expr.PlacedAll depths names es) :
    ∀ use ∈ Expr.supersAll es, names.Records depths (use, 0) := by
  cases es with
  | nil => exact nofun
  | cons e rest =>
    rw [Expr.supersAll, List.forall_mem_append]
    exact ⟨supers e h.1, supersAll rest h.2⟩

end

/-- The `super` expressions of an expression that a statement has. -/
theorem Expr.Placed.supers_zero {e : Expr} (h : e.Placed depths names) :
    ∀ p ∈ e.supers.map (·, 0), names.Records depths p := by
  intro p hp
  obtain ⟨use, huse, rfl⟩ := List.mem_map.1 hp
  exact supers e h use huse

mutual

theorem Stmt.Placed.supers {names : ScopeNames} (s : Stmt) (h : s.Placed depths names) :
    ∀ p ∈ s.supers, names.Records depths p := by
  match s with
  | .expression value | .print value => exact Expr.Placed.supers_zero h
  | .var _ none | .ret _ none | .classDef _ _ _ => exact nofun
  | .var name (some e) =>
    exact fun p hp => ((h.2.2 e rfl).1.supers_zero p hp).of_declare h.1
  | .block body =>
    intro p hp
    obtain ⟨q, hq, rfl⟩ := List.mem_map.1 hp
    exact (supersAll body h q hq).deeper fun _ _ => List.not_mem_nil
  | .conditional condition thenBranch none =>
    rw [Stmt.supers, List.forall_mem_append]
    exact ⟨h.1.supers_zero, supers thenBranch h.2.2⟩
  | .conditional condition thenBranch (some elseBranch) =>
    rw [Stmt.supers, List.forall_mem_append, List.forall_mem_append]
    exact ⟨⟨h.1.supers_zero, supers thenBranch h.2.1.2⟩, supers elseBranch h.2.2.2⟩
  | .whileLoop condition body =>
    rw [Stmt.supers, List.forall_mem_append]
    exact ⟨h.1.supers_zero, supers body h.2.2⟩
  | .function declaration =>
    exact fun p hp => (functionSupers declaration h.2.2 p hp).of_declare h.1
  | .ret _ (some e) => exact (h e rfl).supers_zero

theorem Stmt.Placed.supersAll {names : ScopeNames} (body : List Stmt)
    (h : Stmt.PlacedAll depths names body) :
    ∀ p ∈ Stmt.supersAll body, names.Records depths p := by
  match body with
  | [] => exact nofun
  | s :: rest =>
    rw [Stmt.supersAll, List.forall_mem_append]
    refine ⟨supers s h.1, fun p hp => ?_⟩
    obtain ⟨t, ht, hd⟩ := supersAll rest h.2 p hp
    exact ⟨t, ⟨(h.1.depth?_after fun h => h.1 rfl).symm.trans ht.this,
      (h.1.depth?_after fun h => h.2 rfl).symm.trans ht.super⟩, hd⟩

theorem Stmt.Placed.functionSupers {names : ScopeNames} (f : FunctionDef)
    (h : Stmt.PlacedFunction depths names f) :
    ∀ p ∈ Stmt.functionSupers f, names.Records depths p := by
  match f with
  | ⟨_, params, body⟩ =>
    intro p hp
    obtain ⟨q, hq, rfl⟩ := List.mem_map.1 hp
    refine (supersAll body h.2.2 q hq).deeper fun key hkey hmem => ?_
    obtain ⟨param, hparam, rfl⟩ := List.mem_map.1 (List.mem_reverse.1 hmem)
    exact hkey (h.2.1 param hparam)

end

theorem Stmt.PlacedMethods.of_mem {methods : List FunctionDef} {f : FunctionDef}
    (h : Stmt.PlacedMethods depths names methods) (hf : f ∈ methods) :
    Stmt.PlacedFunction depths names f := by
  induction methods with
  | nil => cases hf
  | cons first rest ih =>
    rcases List.mem_cons.1 hf with rfl | hf
    · exact h.1
    · exact ih h.2 hf

/-- The depths of a class whose methods have the scope of `this` around them. -/
theorem Stmt.PlacedMethods.methodSupers {methods : List FunctionDef}
    (h : Stmt.PlacedMethods depths (["this"] :: names) methods) :
    ∀ p ∈ Stmt.methodSupers methods, names.depth? "super" = some 0 ∧ depths p.1.id = some p.2 := by
  intro p hp
  obtain ⟨q, hq, rfl⟩ := List.mem_map.1 hp
  obtain ⟨f, hf, hq⟩ := List.mem_flatMap.1 hq
  obtain ⟨t, ⟨hthis, hsuper⟩, hd⟩ := Stmt.Placed.functionSupers f (h.of_mem hf) q hq
  rw [ScopeNames.depth?_cons_of_mem (.head _)] at hthis
  obtain rfl : t = 0 := (Option.some.inj hthis).symm
  rw [ScopeNames.depth?_cons_of_not_mem (by decide)] at hsuper
  obtain ⟨depth, hdepth, heq⟩ := Option.map_eq_some_iff.1 hsuper
  obtain rfl : depth = 0 := Nat.succ.inj heq
  refine ⟨hdepth, hd.trans (congrArg some ?_)⟩
  simp only [Stmt.deeper]
  omega

/-- Outside all functions and classes there is no `super`. -/
theorem Stmt.Placed.supersAll_eq_nil {body : List Stmt} (h : Stmt.PlacedAll depths [] body) :
    Stmt.supersAll body = [] := by
  rw [List.eq_nil_iff_forall_not_mem]
  intro p hp
  obtain ⟨t, ⟨hthis, -⟩, -⟩ := supersAll body h p hp
  cases hthis

/-- The innermost scope is not one of a class, which has no statements of its own. -/
def ScopeNames.Plain (names : ScopeNames) : Prop := names.depth? "super" ≠ some 0

theorem ScopeNames.Plain.nil : ScopeNames.Plain [] := nofun

theorem ScopeNames.Plain.cons {scope : List String} (h : "super" ∉ scope) :
    Plain (scope :: names) := by
  unfold Plain
  rw [depth?_cons_of_not_mem h]
  intro hs
  obtain ⟨depth, -, heq⟩ := Option.map_eq_some_iff.1 hs
  exact Nat.succ_ne_zero depth heq

theorem ScopeNames.Plain.declare (h : names.Plain) (hname : OrdinaryName name) :
    (names.declare name).Plain := by
  unfold Plain
  rw [depth?_declare_of_ne fun heq => hname.2 heq.symm]
  exact h

mutual

/-- What resolution records for the classes of a statement. -/
theorem Stmt.Placed.recorded {names : ScopeNames} (s : Stmt) (h : s.Placed depths names) (hp : names.Plain) :
    ∀ parts ∈ s.classes, parts.Recorded depths := by
  match s with
  | .expression _ | .print _ | .var _ _ | .ret _ _ => exact nofun
  | .block body => exact recordedAll body h (.cons List.not_mem_nil)
  | .conditional _ thenBranch none => exact recorded thenBranch h.2.2 hp
  | .conditional _ thenBranch (some elseBranch) =>
    rw [Stmt.classes, List.forall_mem_append]
    exact ⟨recorded thenBranch h.2.1.2 hp, recorded elseBranch h.2.2.2 hp⟩
  | .whileLoop _ body => exact recorded body h.2.2 hp
  | .function declaration => exact recordedFunction declaration h.2.2
  | .classDef name none methods =>
    rw [Stmt.classes, List.forall_mem_cons]
    refine ⟨fun p hp' => ?_, recordedMethods methods h.2.2⟩
    exact absurd (h.2.2.methodSupers p hp').1 (hp.declare h.1)
  | .classDef name (some superclass) methods =>
    rw [Stmt.classes, List.forall_mem_cons]
    exact ⟨fun p hp' => ⟨rfl, (h.2.2.2.methodSupers p hp').2⟩, recordedMethods methods h.2.2.2⟩

theorem Stmt.Placed.recordedAll {names : ScopeNames} (body : List Stmt) (h : Stmt.PlacedAll depths names body)
    (hp : names.Plain) : ∀ parts ∈ Stmt.classesAll body, parts.Recorded depths := by
  match body with
  | [] => exact nofun
  | s :: rest =>
    rw [Stmt.classesAll, List.forall_mem_append]
    refine ⟨recorded s h.1 hp, recordedAll rest h.2 ?_⟩
    unfold ScopeNames.Plain
    rw [h.1.depth?_after fun h => h.2 rfl]
    exact hp

theorem Stmt.Placed.recordedFunction {names : ScopeNames} (f : FunctionDef) (h : Stmt.PlacedFunction depths names f) :
    ∀ parts ∈ Stmt.functionClasses f, parts.Recorded depths := by
  match f with
  | ⟨_, params, body⟩ =>
    refine recordedAll body h.2.2 (.cons fun hmem => ?_)
    obtain ⟨param, hparam, heq⟩ := List.mem_map.1 (List.mem_reverse.1 hmem)
    exact (h.2.1 param hparam).2 heq

theorem Stmt.Placed.recordedMethods {names : ScopeNames} (methods : List FunctionDef)
    (h : Stmt.PlacedMethods depths names methods) :
    ∀ parts ∈ Stmt.methodClasses methods, parts.Recorded depths := by
  match methods with
  | [] => exact nofun
  | f :: rest =>
    rw [Stmt.methodClasses, List.forall_mem_append]
    exact ⟨recordedFunction f h.1, recordedMethods rest h.2⟩

end

end

end Lox
