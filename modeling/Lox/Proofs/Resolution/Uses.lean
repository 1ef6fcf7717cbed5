import Lox.Proofs.Resolution.Ordinary

/-!
# Uses of names

The nodes of a program that are looked up by a name, each with the names that the scopes around it
have declared before it. A variable is declared from its own initial value on, and functions and
classes are declared before their bodies.

## Main results

* `Use.boundAt_iff`: the innermost scope with a name, as a split of the scopes and as a search.
* `Stmt.supersOutsideAll`: in a program, the scope of `super` lies right outside a scope of `this`
  that is not the innermost one, and right inside the scopes around a superclass clause.
-/

namespace Lox

/-- What is looked up. -/
inductive UseKind where
  | variable (name : String)
  | assignment (name : String)
  | superclass (name : String)
  | this
  | super
deriving DecidableEq

/-- A node that is looked up by a name, and the names that the scopes around it have declared before
it, innermost scope first. The global scope is left out. -/
structure Use where
  kind : UseKind
  id : NodeId
  scopes : ScopeNames
deriving DecidableEq

namespace Use

/-- The name under which a use is looked up. -/
def name (use : Use) : String :=
  match use.kind with
  | .variable name | .assignment name | .superclass name => name
  | .this => "this"
  | .super => "super"

/-- The innermost scope that declares the name has `depth` scopes inside it. -/
def BoundAt (use : Use) (depth : Nat) : Prop :=
  ∃ inner scope outer, use.scopes = inner ++ scope :: outer ∧ inner.length = depth ∧
    use.name ∈ scope ∧ ∀ other ∈ inner, use.name ∉ other

end Use

theorem ScopeNames.depth?_eq_some_iff {names : ScopeNames} {name : String} {depth : Nat} :
    names.depth? name = some depth ↔ ∃ inner scope outer, names = inner ++ scope :: outer ∧
      inner.length = depth ∧ name ∈ scope ∧ ∀ other ∈ inner, name ∉ other := by
  induction names generalizing depth with
  | nil => simp [ScopeNames.depth?]
  | cons scope rest ih =>
    rw [ScopeNames.depth?_cons]
    constructor
    · intro h
      split at h
      · next hmem =>
        cases h
        exact ⟨[], scope, rest, rfl, rfl, hmem, List.forall_mem_nil _⟩
      · next hmem =>
        obtain ⟨d, hd, rfl⟩ := Option.map_eq_some_iff.1 h
        obtain ⟨inner, found, outer, rfl, rfl, hfound, hinner⟩ := ih.1 hd
        exact ⟨scope :: inner, found, outer, rfl, rfl, hfound, List.forall_mem_cons.2 ⟨hmem, hinner⟩⟩
    · rintro ⟨inner, found, outer, hsplit, rfl, hfound, hinner⟩
      cases inner with
      | nil =>
        cases hsplit
        exact if_pos hfound
      | cons first inner =>
        cases hsplit
        rw [List.forall_mem_cons] at hinner
        rw [if_neg hinner.1, ih.2 ⟨inner, found, outer, rfl, rfl, hfound, hinner.2⟩]
        rfl

theorem ScopeNames.depth?_eq_none_iff {names : ScopeNames} {name : String} :
    names.depth? name = none ↔ ∀ scope ∈ names, name ∉ scope := by
  simp [ScopeNames.depth?, List.findIdx?_eq_none_iff]

namespace Use

variable {use : Use} {depth : Nat}

theorem boundAt_iff : use.BoundAt depth ↔ use.scopes.depth? use.name = some depth :=
  ScopeNames.depth?_eq_some_iff.symm

theorem exists_boundAt_iff : (∃ depth, use.BoundAt depth) ↔ ∃ scope ∈ use.scopes, use.name ∈ scope := by
  simp only [boundAt_iff]
  rw [← Option.isSome_iff_exists, ← Option.ne_none_iff_isSome, Ne, ScopeNames.depth?_eq_none_iff]
  push Not
  rfl

end Use

/-! ### The uses in a tree -/

namespace Expr

mutual

/-- The uses in an expression, in the order in which they are visited. -/
def uses (scopes : ScopeNames) : Expr → List Use
  | literal _ => []
  | unary _ operand _ => operand.uses scopes
  | binary left _ right _ => left.uses scopes ++ right.uses scopes
  | logical left _ right => left.uses scopes ++ right.uses scopes
  | grouping inner => inner.uses scopes
  | reference target => [⟨.variable target.name.text, target.id, scopes⟩]
  | assign target value => value.uses scopes ++ [⟨.assignment target.name.text, target.id, scopes⟩]
  | call callee arguments _ => callee.uses scopes ++ usesAll scopes arguments
  | get object _ => object.uses scopes
  | set object _ value => value.uses scopes ++ object.uses scopes
  | this id _ => [⟨.this, id, scopes⟩]
  | super id _ _ => [⟨.super, id, scopes⟩]

def usesAll (scopes : ScopeNames) : List Expr → List Use
  | [] => []
  | e :: rest => e.uses scopes ++ usesAll scopes rest

end

/-- The uses in a value that may be missing. -/
def uses? (scopes : ScopeNames) : Option Expr → List Use
  | some e => e.uses scopes
  | none => []

end Expr

/-- The superclass clause of a class. -/
def Reference.uses? (scopes : ScopeNames) : Option Reference → List Use
  | some target => [⟨.superclass target.name.text, target.id, scopes⟩]
  | none => []

/-- The scopes around the methods of a class: one for `this`, and in a class that inherits one for
`super` around it. -/
def ScopeNames.inClass (scopes : ScopeNames) : Option Reference → ScopeNames
  | some _ => ["this"] :: ["super"] :: scopes
  | none => ["this"] :: scopes

namespace Stmt

mutual

/-- The uses in a statement, in the order in which they are visited. The superclass clause of a class
is in the scope that holds the class. -/
def uses (scopes : ScopeNames) : Stmt → List Use
  | expression value => value.uses scopes
  | print value => value.uses scopes
  | var name initial => Expr.uses? (scopes.declare name.text) initial
  | block body => usesAll ([] :: scopes) body
  | conditional condition thenBranch none => condition.uses scopes ++ thenBranch.uses scopes
  | conditional condition thenBranch (some elseBranch) =>
    condition.uses scopes ++ thenBranch.uses scopes ++ elseBranch.uses scopes
  | whileLoop condition body => condition.uses scopes ++ body.uses scopes
  | function declaration => functionUses (scopes.declare declaration.name.text) declaration
  | ret _ value => Expr.uses? scopes value
  | classDef name superclass methods =>
    Reference.uses? (scopes.declare name.text) superclass ++
      methodUses ((scopes.declare name.text).inClass superclass) methods

def usesAll (scopes : ScopeNames) : List Stmt → List Use
  | [] => []
  | s :: rest => s.uses scopes ++ usesAll (scopes.after s) rest

/-- The parameters of a function and the statements of its body are in one scope. -/
def functionUses (scopes : ScopeNames) : FunctionDef → List Use
  | ⟨_, params, body⟩ => usesAll ((params.map Identifier.text).reverse :: scopes) body

def methodUses (scopes : ScopeNames) : List FunctionDef → List Use
  | [] => []
  | declaration :: rest => functionUses scopes declaration ++ methodUses scopes rest

end

end Stmt

/-! ### Every node is used once -/

mutual

theorem Expr.map_id_uses (scopes : ScopeNames) (e : Expr) : (e.uses scopes).map Use.id = e.nodes := by
  cases e with
  | literal | reference | this | super => rfl
  | unary _ operand => exact operand.map_id_uses scopes
  | binary left _ right | logical left _ right =>
    rw [Expr.uses, Expr.nodes, List.map_append, left.map_id_uses, right.map_id_uses]
  | grouping inner => exact inner.map_id_uses scopes
  | assign target value =>
    rw [Expr.uses, Expr.nodes, List.map_append, value.map_id_uses]
    rfl
  | call callee arguments =>
    rw [Expr.uses, Expr.nodes, List.map_append, callee.map_id_uses, Expr.map_id_usesAll]
  | get object => exact object.map_id_uses scopes
  | set object _ value =>
    rw [Expr.uses, Expr.nodes, List.map_append, value.map_id_uses, object.map_id_uses]

theorem Expr.map_id_usesAll (scopes : ScopeNames) (es : List Expr) :
    (Expr.usesAll scopes es).map Use.id = Expr.nodesAll es := by
  cases es with
  | nil => rfl
  | cons e rest =>
    rw [Expr.usesAll, Expr.nodesAll, List.map_append, e.map_id_uses, Expr.map_id_usesAll]

end

theorem Expr.map_id_uses? (scopes : ScopeNames) (value : Option Expr) :
    (Expr.uses? scopes value).map Use.id = Expr.nodes? value := by
  cases value with
  | none => rfl
  | some e => exact e.map_id_uses scopes

mutual

theorem Stmt.map_id_uses (scopes : ScopeNames) (s : Stmt) : (s.uses scopes).map Use.id = s.nodes := by
  match s with
  | .expression value | .print value => exact value.map_id_uses scopes
  | .var name initial => exact Expr.map_id_uses? _ initial
  | .block body => exact Stmt.map_id_usesAll _ body
  | .conditional condition thenBranch none =>
    rw [Stmt.uses, Stmt.nodes, List.map_append, condition.map_id_uses, thenBranch.map_id_uses]
  | .conditional condition thenBranch (some elseBranch) =>
    rw [Stmt.uses, Stmt.nodes, List.map_append, List.map_append, condition.map_id_uses,
      thenBranch.map_id_uses, elseBranch.map_id_uses]
  | .whileLoop condition body =>
    rw [Stmt.uses, Stmt.nodes, List.map_append, condition.map_id_uses, body.map_id_uses]
  | .function declaration => exact Stmt.map_id_functionUses _ declaration
  | .ret _ value => exact Expr.map_id_uses? _ value
  | .classDef name superclass methods =>
    rw [Stmt.uses, Stmt.nodes, List.map_append, Stmt.map_id_methodUses]
    cases superclass <;> rfl

theorem Stmt.map_id_usesAll (scopes : ScopeNames) (body : List Stmt) :
    (Stmt.usesAll scopes body).map Use.id = Stmt.nodesAll body := by
  match body with
  | [] => rfl
  | s :: rest =>
    rw [Stmt.usesAll, Stmt.nodesAll, List.map_append, s.map_id_uses, Stmt.map_id_usesAll]

theorem Stmt.map_id_functionUses (scopes : ScopeNames) (declaration : FunctionDef) :
    (Stmt.functionUses scopes declaration).map Use.id = Stmt.functionNodes declaration := by
  match declaration with
  | ⟨_, _, body⟩ => exact Stmt.map_id_usesAll _ body

theorem Stmt.map_id_methodUses (scopes : ScopeNames) (methods : List FunctionDef) :
    (Stmt.methodUses scopes methods).map Use.id = Stmt.methodNodes methods := by
  match methods with
  | [] => rfl
  | declaration :: rest =>
    rw [Stmt.methodUses, Stmt.methodNodes, List.map_append, Stmt.map_id_functionUses,
      Stmt.map_id_methodUses]

end

/-! ### The scope of `super` -/

/-- The innermost scope of `super`, if there is one, lies right outside a scope of `this`, which has
`inner` inside it, and right inside scopes with the property `K`. -/
def ScopeNames.SuperWithin (K : ScopeNames → Prop) (names : ScopeNames) : Prop :=
  ∀ depth, names.depth? "super" = some depth →
    ∃ inner outer, names = inner ++ ["this"] :: ["super"] :: outer ∧ depth = inner.length + 1 ∧ K outer

/-- As `SuperWithin`, and the scope of `this` is not the innermost one. -/
def ScopeNames.SuperOutside (K : ScopeNames → Prop) (names : ScopeNames) : Prop :=
  ∀ depth, names.depth? "super" = some depth →
    ∃ scope inner outer, names = scope :: inner ++ ["this"] :: ["super"] :: outer ∧
      depth = inner.length + 2 ∧ K outer

namespace ScopeNames

variable {K : ScopeNames → Prop} {names : ScopeNames} {name : String} {scope : List String}

theorem superOutside_nil : SuperOutside K [] := nofun

/-- A scope with ordinary names, such as that of a function, inside. -/
theorem SuperWithin.cons (h : names.SuperWithin K) (hscope : ∀ name ∈ scope, OrdinaryName name) :
    SuperOutside K (scope :: names) := by
  intro depth hdepth
  rw [depth?_cons_of_not_mem fun hmem => (hscope _ hmem).2 rfl] at hdepth
  obtain ⟨d, hd, rfl⟩ := Option.map_eq_some_iff.1 hdepth
  obtain ⟨inner, outer, rfl, rfl, hK⟩ := h d hd
  exact ⟨scope, inner, outer, rfl, rfl, hK⟩

theorem SuperOutside.within (h : names.SuperOutside K) : names.SuperWithin K := by
  intro depth hdepth
  obtain ⟨scope, inner, outer, rfl, rfl, hK⟩ := h depth hdepth
  exact ⟨scope :: inner, outer, rfl, rfl, hK⟩

theorem SuperOutside.declare (h : names.SuperOutside K) (hname : OrdinaryName name) :
    (names.declare name).SuperOutside K := by
  intro depth hdepth
  rw [depth?_declare_of_ne hname.2.symm] at hdepth
  obtain ⟨scope, inner, outer, rfl, rfl, hK⟩ := h depth hdepth
  exact ⟨name :: scope, inner, outer, rfl, rfl, hK⟩

/-- Around the methods of a class the scope of `super` is the class's own or one farther out. -/
theorem SuperOutside.inClass (h : names.SuperOutside K) {superclass : Option Reference}
    (hK : superclass.isSome → K names) : (names.inClass superclass).SuperWithin K := by
  cases superclass with
  | none =>
    intro depth hdepth
    rw [ScopeNames.inClass, depth?_cons_of_not_mem (by simp)] at hdepth
    obtain ⟨d, hd, rfl⟩ := Option.map_eq_some_iff.1 hdepth
    obtain ⟨scope, inner, outer, rfl, rfl, hK⟩ := h d hd
    exact ⟨["this"] :: scope :: inner, outer, rfl, rfl, hK⟩
  | some target =>
    intro depth hdepth
    rw [ScopeNames.inClass, depth?_cons_of_not_mem (by simp), depth?_cons_of_mem (by simp)] at hdepth
    cases hdepth
    exact ⟨[], names, rfl, rfl, hK rfl⟩

end ScopeNames

/-- What a program declares has an ordinary name. -/
theorem Stmt.Ordinary.declared? {s : Stmt} (h : s.Ordinary) {name : String}
    (hs : s.declared? = some name) : OrdinaryName name := by
  cases s with
  | var => exact Option.some.inj hs ▸ h.1
  | classDef => exact Option.some.inj hs ▸ h.1
  | function declaration =>
    obtain ⟨identifier, params, body⟩ := declaration
    exact Option.some.inj hs ▸ h.1
  | _ => cases hs

section SuperScopes

variable {K : ScopeNames → Prop}

mutual

theorem Expr.scopes_of_mem_uses {scopes : ScopeNames} (e : Expr) : ∀ use ∈ e.uses scopes, use.scopes = scopes := by
  cases e with
  | literal => exact nofun
  | unary _ operand => exact operand.scopes_of_mem_uses
  | binary left _ right | logical left _ right =>
    rw [Expr.uses, List.forall_mem_append]
    exact ⟨left.scopes_of_mem_uses, right.scopes_of_mem_uses⟩
  | grouping inner => exact inner.scopes_of_mem_uses
  | reference | this | super => simp [Expr.uses]
  | assign target value =>
    rw [Expr.uses, List.forall_mem_append]
    exact ⟨value.scopes_of_mem_uses, by simp⟩
  | call callee arguments =>
    rw [Expr.uses, List.forall_mem_append]
    exact ⟨callee.scopes_of_mem_uses, Expr.scopes_of_mem_usesAll arguments⟩
  | get object => exact object.scopes_of_mem_uses
  | set object _ value =>
    rw [Expr.uses, List.forall_mem_append]
    exact ⟨value.scopes_of_mem_uses, object.scopes_of_mem_uses⟩

theorem Expr.scopes_of_mem_usesAll {scopes : ScopeNames} (es : List Expr) :
    ∀ use ∈ Expr.usesAll scopes es, use.scopes = scopes := by
  cases es with
  | nil => exact nofun
  | cons e rest =>
    rw [Expr.usesAll, List.forall_mem_append]
    exact ⟨e.scopes_of_mem_uses, Expr.scopes_of_mem_usesAll rest⟩

end

/-- The scope of `super` around each of these uses has the scopes of a superclass clause right
outside it, if those of the clauses among them have the property `K`. -/
def SupersOutside (K : ScopeNames → Prop) (uses : List Use) : Prop :=
  (∀ use ∈ uses, ∀ name, use.kind = .superclass name → K use.scopes) →
    ∀ use ∈ uses, use.scopes.SuperOutside K

theorem SupersOutside.append {uses others : List Use} (h : SupersOutside K uses)
    (k : SupersOutside K others) : SupersOutside K (uses ++ others) := by
  intro hK
  rw [List.forall_mem_append] at hK ⊢
  exact ⟨h hK.1, k hK.2⟩

theorem Expr.supersOutside {scopes : ScopeNames} (h : scopes.SuperOutside K) (e : Expr) :
    SupersOutside K (e.uses scopes) := by
  intro _ use hmem
  rw [e.scopes_of_mem_uses use hmem]
  exact h

theorem Expr.supersOutside? {scopes : ScopeNames} (h : scopes.SuperOutside K) (value : Option Expr) :
    SupersOutside K (Expr.uses? scopes value) := by
  cases value with
  | none => exact fun _ => nofun
  | some e => exact e.supersOutside h

mutual

theorem Stmt.supersOutside {scopes : ScopeNames} (h : scopes.SuperOutside K) (s : Stmt)
    (ho : s.Ordinary) : SupersOutside K (s.uses scopes) := by
  match s with
  | .expression value | .print value => exact value.supersOutside h
  | .var name initial => exact Expr.supersOutside? (h.declare ho.1) initial
  | .block body =>
    have hinside : ScopeNames.SuperOutside K ([] :: scopes) := h.within.cons nofun
    exact Stmt.supersOutsideAll hinside body ho
  | .conditional condition thenBranch none =>
    exact (condition.supersOutside h).append (thenBranch.supersOutside h ho.2.2)
  | .conditional condition thenBranch (some elseBranch) =>
    exact ((condition.supersOutside h).append (thenBranch.supersOutside h ho.2.1.2)).append
      (elseBranch.supersOutside h ho.2.2.2)
  | .whileLoop condition body =>
    exact (condition.supersOutside h).append (body.supersOutside h ho.2.2)
  | .function declaration =>
    have hname := Stmt.OrdinaryFunction.ordinaryName ho
    exact Stmt.supersOutside_function (h.declare hname).within declaration ho
  | .ret _ value => exact Expr.supersOutside? h value
  | .classDef name superclass methods =>
    have hinside := h.declare ho.1
    intro hK
    rw [Stmt.uses, List.forall_mem_append] at hK ⊢
    have hclause : superclass.isSome → K (scopes.declare name.text) := by
      intro hsome
      obtain ⟨target, rfl⟩ := Option.isSome_iff_exists.1 hsome
      exact hK.1 _ (List.mem_singleton.2 rfl) _ rfl
    refine ⟨fun use hmem => ?_, Stmt.supersOutside_methods (hinside.inClass hclause) methods ho.2 hK.2⟩
    cases superclass with
    | none => cases hmem
    | some target =>
      cases List.mem_singleton.1 hmem
      exact hinside

theorem Stmt.supersOutsideAll {scopes : ScopeNames} (h : scopes.SuperOutside K) (body : List Stmt)
    (ho : Stmt.OrdinaryAll body) : SupersOutside K (Stmt.usesAll scopes body) := by
  match body with
  | [] => exact fun _ => nofun
  | s :: rest =>
    refine (s.supersOutside h ho.1).append (Stmt.supersOutsideAll ?_ rest ho.2)
    unfold ScopeNames.after
    split
    · next name hname => exact h.declare (ho.1.declared? hname)
    · exact h

theorem Stmt.supersOutside_function {scopes : ScopeNames} (h : scopes.SuperWithin K)
    (declaration : FunctionDef) (ho : Stmt.OrdinaryFunction declaration) :
    SupersOutside K (Stmt.functionUses scopes declaration) := by
  match declaration with
  | ⟨_, params, body⟩ =>
    refine Stmt.supersOutsideAll (h.cons ?_) body ho.2.2
    intro name hmem
    obtain ⟨param, hparam, rfl⟩ := List.mem_map.1 (List.mem_reverse.1 hmem)
    exact ho.2.1 param hparam

theorem Stmt.supersOutside_methods {scopes : ScopeNames} (h : scopes.SuperWithin K)
    (methods : List FunctionDef) (ho : Stmt.OrdinaryMethods methods) :
    SupersOutside K (Stmt.methodUses scopes methods) := by
  match methods with
  | [] => exact fun _ => nofun
  | declaration :: rest =>
    exact (Stmt.supersOutside_function h declaration ho.1).append
      (Stmt.supersOutside_methods h rest ho.2)

end

end SuperScopes

end Lox
