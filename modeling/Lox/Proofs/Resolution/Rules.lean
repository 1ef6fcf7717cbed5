import Lox.Diagnostic
import Lox.Proofs.Resolution.Placement

/-!
# The rules of scoping

Where a program breaks the rules of scoping. A place that a rule is about is a `Site`: what is done
there, on which line, and what is around it. Whether a rule is broken is seen from one site alone, so
nothing here has a state.

## Implementation notes

What is around a place is listed from the inside out. A scope comes with the names that are declared in it
before the place, latest first. The global scope is no layer, and the statements in the branches of a
conditional or in a loop are in the scope around it.
-/

namespace Lox

/-- A construct around a place. -/
inductive Layer where
  | scope (earlier : List String)
  | function (name : String) (role : FunctionRole)
  | classBody (inherits : Bool)
  | initial (name : String)

abbrev Surroundings := List Layer

/-- What a rule may be about. -/
inductive Act where
  | declare (name : String)
  | read (name : String)
  | ret (hasValue : Bool)
  | this
  | super
  | inherit (name superclass : String)

structure Site where
  act : Act
  line : Nat
  around : Surroundings

/-! ### Broken rules -/

/-- What is done at the site is against the rule. -/
inductive Site.Breaks : Site → ScopeFault → Prop where
  | alreadyDeclared {name line earlier outer} (h : name ∈ earlier) :
      Breaks ⟨.declare name, line, .scope earlier :: outer⟩ .alreadyDeclared
  | readInOwnInitializer {name line earlier outer} :
      Breaks ⟨.read name, line, .initial name :: .scope earlier :: outer⟩ .readInOwnInitializer
  | returnOutsideFunction {hasValue line around} (h : ∀ name role, .function name role ∉ around) :
      Breaks ⟨.ret hasValue, line, around⟩ .returnOutsideFunction
  | valueReturnedFromInitializer {line inner outer} (h : ∀ name role, .function name role ∉ inner) :
      Breaks ⟨.ret true, line, inner ++ .function initializerName .method :: outer⟩
        .valueReturnedFromInitializer
  | thisOutsideClass {line around} (h : ∀ inherits, .classBody inherits ∉ around) :
      Breaks ⟨.this, line, around⟩ .thisOutsideClass
  | superOutsideClass {line around} (h : ∀ inherits, .classBody inherits ∉ around) :
      Breaks ⟨.super, line, around⟩ .superOutsideClass
  | superWithoutSuperclass {line inner outer} (h : ∀ inherits, .classBody inherits ∉ inner) :
      Breaks ⟨.super, line, inner ++ .classBody false :: outer⟩ .superWithoutSuperclass
  | inheritsFromItself {name line around} : Breaks ⟨.inherit name name, line, around⟩ .inheritsFromItself

namespace Surroundings

variable {around : Surroundings} {name : String} {role : FunctionRole} {inherits : Bool}

/-- The names declared before in the scope that a declaration is in. -/
def earlier : Surroundings → List String
  | .scope earlier :: _ => earlier
  | _ => []

/-- The local variable whose initial value is read here. -/
def initialized? : Surroundings → Option String
  | .initial name :: .scope _ :: _ => some name
  | _ => none

/-- The nearest function. -/
def function? (around : Surroundings) : Option (String × FunctionRole) :=
  around.findSome? fun
    | .function name role => some (name, role)
    | _ => none

/-- Whether the nearest class inherits. -/
def class? (around : Surroundings) : Option Bool :=
  around.findSome? fun
    | .classBody inherits => some inherits
    | _ => none

theorem mem_earlier_iff :
    name ∈ around.earlier ↔ ∃ names outer, around = .scope names :: outer ∧ name ∈ names := by
  unfold earlier
  split
  · exact ⟨fun h => ⟨_, _, rfl, h⟩, fun ⟨_, _, h, hmem⟩ => by cases h; exact hmem⟩
  · next hne => exact ⟨nofun, fun ⟨names, outer, h, _⟩ => absurd h (hne names outer)⟩

theorem initialized?_eq_some_iff :
    around.initialized? = some name ↔
      ∃ names outer, around = .initial name :: .scope names :: outer := by
  unfold initialized?
  split
  · constructor
    · intro h
      cases h
      exact ⟨_, _, rfl⟩
    · rintro ⟨_, _, h⟩
      cases h
      rfl
  · next hne => exact ⟨nofun, fun ⟨names, outer, h⟩ => absurd h (hne name names outer)⟩

theorem function?_eq_none_iff :
    around.function? = none ↔ ∀ name role, .function name role ∉ around := by
  unfold function?
  rw [List.findSome?_eq_none_iff]
  constructor
  · intro h name role hmem
    cases h _ hmem
  · intro h layer hmem
    cases layer with
    | function name role => exact absurd hmem (h name role)
    | _ => rfl

theorem function?_eq_some_iff :
    around.function? = some (name, role) ↔ ∃ inner outer,
      around = inner ++ .function name role :: outer ∧
        ∀ name role, .function name role ∉ inner := by
  unfold function?
  rw [List.findSome?_eq_some_iff]
  constructor
  · rintro ⟨inner, layer, outer, hsplit, hlayer, hinner⟩
    cases layer with
    | function name role =>
      cases hlayer
      exact ⟨inner, outer, hsplit, function?_eq_none_iff.1 (List.findSome?_eq_none_iff.2 hinner)⟩
    | _ => cases hlayer
  · rintro ⟨inner, outer, hsplit, hinner⟩
    exact ⟨inner, _, outer, hsplit, rfl, List.findSome?_eq_none_iff.1 (function?_eq_none_iff.2 hinner)⟩

theorem class?_eq_none_iff : around.class? = none ↔ ∀ inherits, .classBody inherits ∉ around := by
  unfold class?
  rw [List.findSome?_eq_none_iff]
  constructor
  · intro h inherits hmem
    cases h _ hmem
  · intro h layer hmem
    cases layer with
    | classBody inherits => exact absurd hmem (h inherits)
    | _ => rfl

theorem class?_eq_some_iff :
    around.class? = some inherits ↔ ∃ inner outer, around = inner ++ .classBody inherits :: outer ∧
      ∀ inherits, .classBody inherits ∉ inner := by
  unfold class?
  rw [List.findSome?_eq_some_iff]
  constructor
  · rintro ⟨inner, layer, outer, hsplit, hlayer, hinner⟩
    cases layer with
    | classBody inherits =>
      cases hlayer
      exact ⟨inner, outer, hsplit, class?_eq_none_iff.1 (List.findSome?_eq_none_iff.2 hinner)⟩
    | _ => cases hlayer
  · rintro ⟨inner, outer, hsplit, hinner⟩
    exact ⟨inner, _, outer, hsplit, rfl, List.findSome?_eq_none_iff.1 (class?_eq_none_iff.2 hinner)⟩

end Surroundings

namespace Site

/-- The rule that the site breaks. No site breaks two. -/
def fault? (site : Site) : Option ScopeFault :=
  match site.act with
  | .declare name => if name ∈ site.around.earlier then some .alreadyDeclared else none
  | .read name =>
    if site.around.initialized? = some name then some .readInOwnInitializer else none
  | .ret hasValue =>
    match site.around.function? with
    | none => some .returnOutsideFunction
    | some (name, role) =>
      if hasValue ∧ name = initializerName ∧ role = .method then
        some .valueReturnedFromInitializer
      else none
  | .this => if site.around.class? = none then some .thisOutsideClass else none
  | .super =>
    match site.around.class? with
    | none => some .superOutsideClass
    | some false => some .superWithoutSuperclass
    | some true => none
  | .inherit name superclass => if superclass = name then some .inheritsFromItself else none

theorem breaks_iff {site : Site} {rule : ScopeFault} :
    site.Breaks rule ↔ site.fault? = some rule := by
  constructor
  · intro h
    cases h with
    | alreadyDeclared h => exact if_pos h
    | readInOwnInitializer => exact if_pos rfl
    | returnOutsideFunction h => simp only [fault?, Surroundings.function?_eq_none_iff.2 h]
    | valueReturnedFromInitializer h =>
      simp only [fault?, Surroundings.function?_eq_some_iff.2 ⟨_, _, rfl, h⟩, and_self, if_true]
    | thisOutsideClass h => exact if_pos (Surroundings.class?_eq_none_iff.2 h)
    | superOutsideClass h => simp only [fault?, Surroundings.class?_eq_none_iff.2 h]
    | superWithoutSuperclass h =>
      simp only [fault?, Surroundings.class?_eq_some_iff.2 ⟨_, _, rfl, h⟩]
    | inheritsFromItself => exact if_pos rfl
  · obtain ⟨act, line, around⟩ := site
    intro h
    cases act with
    | declare name =>
      obtain ⟨hmem, hrule⟩ := Option.ite_none_right_eq_some.1 h
      obtain ⟨names, outer, rfl, hmem⟩ := Surroundings.mem_earlier_iff.1 hmem
      exact Option.some.inj hrule ▸ .alreadyDeclared hmem
    | read name =>
      obtain ⟨hinitial, hrule⟩ := Option.ite_none_right_eq_some.1 h
      obtain ⟨names, outer, rfl⟩ := Surroundings.initialized?_eq_some_iff.1 hinitial
      exact Option.some.inj hrule ▸ .readInOwnInitializer
    | ret hasValue =>
      simp only [fault?] at h
      cases hfunction : around.function? with
      | none =>
        rw [hfunction] at h
        exact Option.some.inj h ▸ .returnOutsideFunction (Surroundings.function?_eq_none_iff.1 hfunction)
      | some nearest =>
        rw [hfunction] at h
        obtain ⟨⟨hvalue, hname, hrole⟩, hrule⟩ := Option.ite_none_right_eq_some.1 h
        obtain ⟨name, role⟩ := nearest
        obtain ⟨inner, outer, rfl, hinner⟩ := Surroundings.function?_eq_some_iff.1 hfunction
        subst hvalue hname hrole
        exact Option.some.inj hrule ▸ .valueReturnedFromInitializer hinner
    | this =>
      obtain ⟨hclass, hrule⟩ := Option.ite_none_right_eq_some.1 h
      exact Option.some.inj hrule ▸ .thisOutsideClass (Surroundings.class?_eq_none_iff.1 hclass)
    | super =>
      simp only [fault?] at h
      cases hclass : around.class? with
      | none =>
        rw [hclass] at h
        exact Option.some.inj h ▸ .superOutsideClass (Surroundings.class?_eq_none_iff.1 hclass)
      | some inherits =>
        rw [hclass] at h
        cases inherits with
        | false =>
          obtain ⟨inner, outer, rfl, hinner⟩ := Surroundings.class?_eq_some_iff.1 hclass
          exact Option.some.inj h ▸ .superWithoutSuperclass hinner
        | true => cases h
    | inherit name superclass =>
      obtain ⟨rfl, hrule⟩ := Option.ite_none_right_eq_some.1 h
      exact Option.some.inj hrule ▸ .inheritsFromItself

instance (site : Site) (rule : ScopeFault) : Decidable (site.Breaks rule) :=
  decidable_of_iff _ breaks_iff.symm

end Site

/-- The rules, each once. -/
def ScopeFault.all : List ScopeFault :=
  [.alreadyDeclared, .readInOwnInitializer, .returnOutsideFunction, .valueReturnedFromInitializer,
    .thisOutsideClass, .superOutsideClass, .superWithoutSuperclass, .inheritsFromItself]

theorem ScopeFault.filter_all_eq (fault? : Option ScopeFault) :
    ScopeFault.all.filter (fault? = some ·) = fault?.toList := by
  cases fault? with
  | none => rfl
  | some rule => cases rule <;> rfl

/-- A diagnostic for each rule that is broken, on the line of the site. -/
def Site.violations (site : Site) : List Diagnostic :=
  (ScopeFault.all.filter (site.Breaks ·)).map fun rule => ⟨.scoping rule, site.line⟩

theorem Site.violations_eq (site : Site) :
    site.violations = site.fault?.toList.map fun rule => ⟨.scoping rule, site.line⟩ := by
  unfold Site.violations
  simp only [breaks_iff, ScopeFault.filter_all_eq]

theorem Site.violations_eq_nil_iff (site : Site) : site.violations = [] ↔ ∀ rule, ¬ site.Breaks rule := by
  rw [Site.violations_eq, List.map_eq_nil_iff, Option.toList_eq_nil_iff, Option.eq_none_iff_forall_ne_some]
  simp only [breaks_iff, ne_eq]

/-! ### The sites of a program -/

namespace Surroundings

/-- What is around the places after a declaration. -/
def declare : Surroundings → String → Surroundings
  | .scope earlier :: outer, name => .scope (name :: earlier) :: outer
  | around, _ => around

def after (around : Surroundings) (s : Stmt) : Surroundings :=
  match s.declared? with
  | some name => around.declare name
  | none => around

end Surroundings

namespace Expr

mutual

/-- The sites of an expression, in the order in which they are visited. -/
def sites (around : Surroundings) : Expr → List Site
  | literal _ => []
  | unary _ operand _ => operand.sites around
  | binary left _ right _ => left.sites around ++ right.sites around
  | logical left _ right => left.sites around ++ right.sites around
  | grouping inner => inner.sites around
  | reference target => [⟨.read target.name.text, target.name.line, around⟩]
  | assign _ value => value.sites around
  | call callee arguments _ => callee.sites around ++ sitesAll around arguments
  | get object _ => object.sites around
  | set object _ value => value.sites around ++ object.sites around
  | this _ line => [⟨.this, line, around⟩]
  | super _ line _ => [⟨.super, line, around⟩]

def sitesAll (around : Surroundings) : List Expr → List Site
  | [] => []
  | e :: rest => e.sites around ++ sitesAll around rest

end

/-- The sites of a value that may be missing. -/
def sites? (around : Surroundings) : Option Expr → List Site
  | some e => e.sites around
  | none => []

end Expr

/-- Parameters are declared one after the other in a scope. -/
def Identifier.sites (around : Surroundings) : List Identifier → List Site
  | [] => []
  | param :: rest =>
    ⟨.declare param.text, param.line, around⟩ :: sites (around.declare param.text) rest

/-- The superclass clause of a class. -/
def Reference.sites? (around : Surroundings) (name : String) : Option Reference → List Site
  | some target =>
    [⟨.inherit name target.name.text, target.name.line, around⟩,
      ⟨.read target.name.text, target.name.line, around⟩]
  | none => []

namespace Stmt

mutual

/-- The sites of a statement, in the order in which they are visited. -/
def sites (around : Surroundings) : Stmt → List Site
  | expression value => value.sites around
  | print value => value.sites around
  | var name initial =>
    ⟨.declare name.text, name.line, around⟩ :: Expr.sites? (.initial name.text :: around) initial
  | block body => sitesAll (.scope [] :: around) body
  | conditional condition thenBranch none => condition.sites around ++ thenBranch.sites around
  | conditional condition thenBranch (some elseBranch) =>
    condition.sites around ++ thenBranch.sites around ++ elseBranch.sites around
  | whileLoop condition body => condition.sites around ++ body.sites around
  | function declaration =>
    ⟨.declare declaration.name.text, declaration.name.line, around⟩ ::
      functionSites .function (around.declare declaration.name.text) declaration
  | ret line value => ⟨.ret value.isSome, line, around⟩ :: Expr.sites? around value
  | classDef name superclass methods =>
    ⟨.declare name.text, name.line, around⟩ ::
      (Reference.sites? (around.declare name.text) name.text superclass ++
        methodSites (.classBody superclass.isSome :: around.declare name.text) methods)

def sitesAll (around : Surroundings) : List Stmt → List Site
  | [] => []
  | s :: rest => s.sites around ++ sitesAll (around.after s) rest

/-- The parameters of a function and the statements of its body are in one scope. -/
def functionSites (role : FunctionRole) (around : Surroundings) : FunctionDef → List Site
  | ⟨name, params, body⟩ =>
    Identifier.sites (.scope [] :: .function name.text role :: around) params ++
      sitesAll (.scope (params.map Identifier.text).reverse :: .function name.text role :: around)
        body

def methodSites (around : Surroundings) : List FunctionDef → List Site
  | [] => []
  | declaration :: rest =>
    functionSites .method around declaration ++ methodSites around rest

end

end Stmt

end Lox
