import Lox.Proofs.Resolution.Ordinary
import Lox.Proofs.Respelling

/-!
# Respelling in one scope

Every local variable and every parameter is in the scope of a block or of a function. A scope is found by
the way to it from the outside. What it calls `x` is called `y` there and wherever it is referred to.

## Implementation notes

A way is a list of turns, one for each list of statements or methods and each pair of branches on it: into
the first, or past it.
-/

namespace Lox

inductive Turn where
  | into
  | past
deriving DecidableEq

abbrev Way := List Turn

/-- The parameters of a function, if the scope is its, and the statements. -/
structure LocalScope where
  params : List Identifier
  body : List Stmt

/-- The scope has a parameter or a variable of this name. -/
def LocalScope.Has (scope : LocalScope) (name : String) : Prop :=
  (∃ param ∈ scope.params, param.text = name) ∨
    ∃ declared initial, .var declared initial ∈ scope.body ∧ declared.text = name

namespace Stmt

mutual

/-- The scope at the end of a way. -/
def scope? : Stmt → Way → Option LocalScope
  | block body, [] => some ⟨[], body⟩
  | block body, turn :: way => scopeIn? body (turn :: way)
  | conditional _ thenBranch none, way => thenBranch.scope? way
  | conditional _ thenBranch (some _), .into :: way => thenBranch.scope? way
  | conditional _ _ (some elseBranch), .past :: way => elseBranch.scope? way
  | whileLoop _ body, way => body.scope? way
  | function declaration, way => functionScope? declaration way
  | classDef _ _ methods, way => methodScope? methods way
  | _, _ => none

def scopeIn? : List Stmt → Way → Option LocalScope
  | s :: _, .into :: way => s.scope? way
  | _ :: rest, .past :: way => scopeIn? rest way
  | _, _ => none

def functionScope? : FunctionDef → Way → Option LocalScope
  | ⟨_, params, body⟩, [] => some ⟨params, body⟩
  | ⟨_, _, body⟩, turn :: way => scopeIn? body (turn :: way)

def methodScope? : List FunctionDef → Way → Option LocalScope
  | declaration :: _, .into :: way => functionScope? declaration way
  | _ :: rest, .past :: way => methodScope? rest way
  | _, _ => none

end

end Stmt

/-! ### Respelling -/

def Identifier.respell (x y : String) (mark : Bool) (name : Identifier) : Identifier :=
  { name with text := Lox.respell x y mark name.text }

def Reference.respell (x y : String) (names : ScopeNames) (marks : List Bool) (target : Reference) :
    Reference :=
  { target with name := target.name.respell x y (names.mark marks target.name.text) }

namespace Expr

mutual

def respell (x y : String) (names : ScopeNames) (marks : List Bool) : Expr → Expr
  | literal value => literal value
  | unary operator operand line => unary operator (operand.respell x y names marks) line
  | binary left operator right line =>
    binary (left.respell x y names marks) operator (right.respell x y names marks) line
  | logical left operator right =>
    logical (left.respell x y names marks) operator (right.respell x y names marks)
  | grouping inner => grouping (inner.respell x y names marks)
  | reference target => reference (target.respell x y names marks)
  | assign target value => assign (target.respell x y names marks) (value.respell x y names marks)
  | call callee arguments line =>
    call (callee.respell x y names marks) (respellAll x y names marks arguments) line
  | get object name => get (object.respell x y names marks) name
  | set object name value => set (object.respell x y names marks) name (value.respell x y names marks)
  | this id line => this id line
  | super id line method => super id line method

def respellAll (x y : String) (names : ScopeNames) (marks : List Bool) : List Expr → List Expr
  | [] => []
  | e :: rest => e.respell x y names marks :: respellAll x y names marks rest

end

end Expr

/-- Which scopes are respelled, by the ways to them. -/
abbrev Choice := Way → Bool

namespace Choice

variable (choice : Choice)

def into : Choice := fun way => choice (.into :: way)

def past : Choice := fun way => choice (.past :: way)

end Choice

namespace Stmt

mutual

/-- Respells a statement in the scopes that are chosen. The marks say which of the scopes around it are. -/
def respell (x y : String) (choice : Choice) (names : ScopeNames) (marks : List Bool) : Stmt → Stmt
  | expression value => expression (value.respell x y names marks)
  | print value => print (value.respell x y names marks)
  | var name initial =>
    var (name.respell x y (marks.headD false))
      (initial.map (Expr.respell x y (names.declare name.text) marks))
  | block body => block (respellAll x y choice ([] :: names) (choice [] :: marks) body)
  | conditional condition thenBranch none =>
    conditional (condition.respell x y names marks) (thenBranch.respell x y choice names marks) none
  | conditional condition thenBranch (some elseBranch) =>
    conditional (condition.respell x y names marks) (thenBranch.respell x y choice.into names marks)
      (some (elseBranch.respell x y choice.past names marks))
  | whileLoop condition body =>
    whileLoop (condition.respell x y names marks) (body.respell x y choice names marks)
  | function declaration =>
    function (respellFunction x y choice (names.declare declaration.name.text) marks declaration)
  | ret line value => ret line (value.map (Expr.respell x y names marks))
  | classDef name none methods =>
    classDef name none
      (respellMethods x y choice (["this"] :: names.declare name.text) (false :: marks) methods)
  | classDef name (some superclass) methods =>
    classDef name (some (superclass.respell x y names marks))
      (respellMethods x y choice (["this"] :: ["super"] :: names.declare name.text)
        (false :: false :: marks) methods)

def respellAll (x y : String) (choice : Choice) (names : ScopeNames) (marks : List Bool) :
    List Stmt → List Stmt
  | [] => []
  | s :: rest =>
    s.respell x y choice.into names marks :: respellAll x y choice.past (names.after s) marks rest

def respellFunction (x y : String) (choice : Choice) (names : ScopeNames) (marks : List Bool) :
    FunctionDef → FunctionDef
  | ⟨name, params, body⟩ =>
    ⟨name, params.map (Identifier.respell x y (choice [])),
      respellAll x y choice ((params.map Identifier.text).reverse :: names) (choice [] :: marks) body⟩

def respellMethods (x y : String) (choice : Choice) (names : ScopeNames) (marks : List Bool) :
    List FunctionDef → List FunctionDef
  | [] => []
  | declaration :: rest =>
    respellFunction x y choice.into names marks declaration ::
      respellMethods x y choice.past names marks rest

end

/-- A program in which one scope calls `y` what it called `x`. -/
def respellAt (x y : String) (way : Way) (body : List Stmt) : List Stmt :=
  respellAll x y (fun other => other = way) [] [] body

end Stmt

-- The inner variable of the same name stays.
example (i j : NodeId) :
    Stmt.respellAt "a" "b" [.into]
      [.block [.var ⟨"a", 1⟩ none, .block [.var ⟨"a", 2⟩ none, .print (.reference ⟨i, ⟨"a", 2⟩⟩)],
        .print (.reference ⟨j, ⟨"a", 3⟩⟩)]] =
      [.block [.var ⟨"b", 1⟩ none, .block [.var ⟨"a", 2⟩ none, .print (.reference ⟨i, ⟨"a", 2⟩⟩)],
        .print (.reference ⟨j, ⟨"b", 3⟩⟩)]] := by
  rfl

/-! ### Names of variables -/

namespace Expr

mutual

/-- The names of the variables that an expression refers to. -/
def names : Expr → List String
  | literal _ | this _ _ | super _ _ _ => []
  | unary _ operand _ => operand.names
  | binary left _ right _ => left.names ++ right.names
  | logical left _ right => left.names ++ right.names
  | grouping inner => inner.names
  | reference target => [target.name.text]
  | assign target value => target.name.text :: value.names
  | call callee arguments _ => callee.names ++ namesAll arguments
  | get object _ => object.names
  | set object _ value => object.names ++ value.names

def namesAll : List Expr → List String
  | [] => []
  | e :: rest => e.names ++ namesAll rest

end

def names? : Option Expr → List String
  | some e => e.names
  | none => []

end Expr

namespace Stmt

mutual

/-- The names of variables, parameters, functions and classes that a statement declares or refers to. The
names of properties and of methods are others. -/
def names : Stmt → List String
  | expression value | print value => value.names
  | var name initial => name.text :: Expr.names? initial
  | block body => namesAll body
  | conditional condition thenBranch none => condition.names ++ thenBranch.names
  | conditional condition thenBranch (some elseBranch) =>
    condition.names ++ thenBranch.names ++ elseBranch.names
  | whileLoop condition body => condition.names ++ body.names
  | function declaration => declaration.name.text :: functionNames declaration
  | ret _ value => Expr.names? value
  | classDef name none methods => name.text :: methodNames methods
  | classDef name (some superclass) methods =>
    name.text :: superclass.name.text :: methodNames methods

def namesAll : List Stmt → List String
  | [] => []
  | s :: rest => s.names ++ namesAll rest

def functionNames : FunctionDef → List String
  | ⟨_, params, body⟩ => params.map Identifier.text ++ namesAll body

def methodNames : List FunctionDef → List String
  | [] => []
  | declaration :: rest => functionNames declaration ++ methodNames rest

end

/-- The name of a function or of a class that a statement declares. -/
def named? : Stmt → Option String
  | function declaration => some declaration.name.text
  | classDef name _ _ => some name.text
  | _ => none

end Stmt

/-- No function or class is called `x` in a scope that is chosen. -/
def Choice.Keeps (choice : Choice) (x : String) (scope? : Way → Option LocalScope) : Prop :=
  ∀ way, choice way = true → ∀ scope ∈ scope? way, ∀ s ∈ scope.body, s.named? ≠ some x

theorem Stmt.declared?_of_named? {s : Stmt} {name : String} (h : s.named? = some name) :
    s.declared? = some name := by
  cases s with
  | function | classDef => exact h
  | _ => cases h

/-- A statement that declares nothing declares no function. -/
theorem Stmt.named?_ne {s : Stmt} (h : s.declared? = none) (name : String) : s.named? ≠ some name := by
  intro hname
  rw [s.declared?_of_named? hname] at h
  cases h

theorem Stmt.scopeIn?_nil (body : List Stmt) : Stmt.scopeIn? body [] = none := by
  cases body <;> rfl

namespace Choice.Keeps

variable {choice : Choice} {x : String} {scope? inner? : Way → Option LocalScope}

theorem into (h : choice.Keeps x scope?) (hinner : ∀ way, scope? (.into :: way) = inner? way) :
    choice.into.Keeps x inner? :=
  fun way hway scope hscope => h (.into :: way) hway scope ((hinner way).symm ▸ hscope)

theorem past (h : choice.Keeps x scope?) (hinner : ∀ way, scope? (.past :: way) = inner? way) :
    choice.past.Keeps x inner? :=
  fun way hway scope hscope => h (.past :: way) hway scope ((hinner way).symm ▸ hscope)

/-- The statements of a scope, without the scope itself. -/
theorem inside (h : choice.Keeps x scope?) (hnil : inner? [] = none)
    (hinner : ∀ turn way, scope? (turn :: way) = inner? (turn :: way)) : choice.Keeps x inner? := by
  intro way hway scope hscope
  cases way with
  | nil =>
    rw [hnil] at hscope
    cases hscope
  | cons turn way => exact h _ hway scope ((hinner turn way).symm ▸ hscope)

end Choice.Keeps

section

variable {x y : String} {names : ScopeNames} {marks : List Bool}

theorem Identifier.respelled {name : Identifier} (h : y ≠ name.text) (mark : Bool) :
    name.Respelled x y mark (name.respell x y mark) := ⟨h.symm, rfl, rfl⟩

theorem Reference.respelled {target : Reference} (h : y ≠ target.name.text) :
    target.Respelled x y names marks (target.respell x y names marks) := Identifier.respelled h _

mutual

theorem Expr.respelled (e : Expr) (h : y ∉ e.names) :
    e.Respelled x y names marks (e.respell x y names marks) := by
  match e with
  | .literal value => exact .literal value
  | .unary _ operand _ => exact .unary (operand.respelled h)
  | .binary left _ right _ =>
    rw [Expr.names, List.mem_append, not_or] at h
    exact .binary (left.respelled h.1) (right.respelled h.2)
  | .logical left _ right =>
    rw [Expr.names, List.mem_append, not_or] at h
    exact .logical (left.respelled h.1) (right.respelled h.2)
  | .grouping inner => exact .grouping (inner.respelled h)
  | .reference target => exact .reference (Reference.respelled fun he => h (List.mem_singleton.2 he))
  | .assign target value =>
    rw [Expr.names, List.mem_cons, not_or] at h
    exact .assign (Reference.respelled h.1) (value.respelled h.2)
  | .call callee arguments _ =>
    rw [Expr.names, List.mem_append, not_or] at h
    exact .call (callee.respelled h.1) (Expr.allRespelled arguments h.2)
  | .get object _ => exact .get (object.respelled h)
  | .set object _ value =>
    rw [Expr.names, List.mem_append, not_or] at h
    exact .set (object.respelled h.1) (value.respelled h.2)
  | .this _ _ => exact .this
  | .super _ _ _ => exact .super

theorem Expr.allRespelled (es : List Expr) (h : y ∉ Expr.namesAll es) :
    Expr.AllRespelled x y names marks es (Expr.respellAll x y names marks es) := by
  match es with
  | [] => exact .nil
  | e :: rest =>
    rw [Expr.namesAll, List.mem_append, not_or] at h
    exact .cons (e.respelled h.1) (Expr.allRespelled rest h.2)

end

theorem Expr.option_respelled (value : Option Expr) (h : y ∉ Expr.names? value) :
    Option.Rel (Expr.Respelled x y names marks) value (value.map (Expr.respell x y names marks)) := by
  cases value with
  | none => exact .none
  | some e => exact .some (e.respelled h)

theorem Identifier.all_respelled (params : List Identifier) (h : y ∉ params.map Identifier.text)
    (mark : Bool) :
    List.Forall₂ (Identifier.Respelled x y mark) params (params.map (Identifier.respell x y mark)) :=
  List.forall₂_map_right_iff.2 (List.forall₂_same.2 fun _ hparam =>
    Identifier.respelled (fun he => h (List.mem_map.2 ⟨_, hparam, he.symm⟩)) mark)

end

section

variable {x y : String}

mutual

/-- What respelling gives is the statement respelled. -/
theorem Stmt.respelled {choice : Choice} {names : ScopeNames} {marks : List Bool} (s : Stmt)
    (ho : s.Ordinary) (h : y ∉ s.names) (hk : choice.Keeps x s.scope?)
    (hn : marks.headD false = true → s.named? ≠ some x) :
    Stmt.Respelled x y names marks s (s.respell x y choice names marks) := by
  match s with
  | .expression value => exact .expression (value.respelled h)
  | .print value => exact .print (value.respelled h)
  | .var name initial =>
    rw [Stmt.names, List.mem_cons, not_or] at h
    exact .var (Identifier.respelled h.1 _) (Expr.option_respelled initial h.2)
  | .block body =>
    have hinside := hk.inside (Stmt.scopeIn?_nil body) fun _ _ => rfl
    exact .block (choice []) (Stmt.bodyRespelled body ho h hinside fun hmark => hk [] hmark _ rfl)
  -- A branch declares nothing, so it does not matter here whether the scope around it is chosen.
  | .conditional condition thenBranch none =>
    rw [Stmt.names, List.mem_append, not_or] at h
    exact .ifThen (condition.respelled h.1)
      (thenBranch.respelled ho.2.2 h.2 hk fun _ => Stmt.named?_ne ho.2.1 x)
  | .conditional condition thenBranch (some elseBranch) =>
    rw [Stmt.names, List.mem_append, List.mem_append, not_or, not_or] at h
    exact .ifThenElse (condition.respelled h.1.1)
      (thenBranch.respelled ho.2.1.2 h.1.2 (hk.into fun _ => rfl) fun _ => Stmt.named?_ne ho.2.1.1 x)
      (elseBranch.respelled ho.2.2.2 h.2 (hk.past fun _ => rfl) fun _ => Stmt.named?_ne ho.2.2.1 x)
  | .whileLoop condition body =>
    rw [Stmt.names, List.mem_append, not_or] at h
    exact .whileLoop (condition.respelled h.1)
      (body.respelled ho.2.2 h.2 hk fun _ => Stmt.named?_ne ho.2.1 x)
  | .function declaration =>
    rw [Stmt.names, List.mem_cons, not_or] at h
    exact .function (Ne.symm h.1) (fun hmark he => hn hmark (congrArg some he))
      (Stmt.functionRespelled declaration ho h.2 hk)
  | .ret _ value => exact .ret (Expr.option_respelled value h)
  | .classDef name none methods =>
    rw [Stmt.names, List.mem_cons, not_or] at h
    exact .base (Ne.symm h.1) (fun hmark he => hn hmark (congrArg some he))
      (Stmt.methodsRespelled methods ho.2 h.2 hk)
  | .classDef name (some superclass) methods =>
    rw [Stmt.names, List.mem_cons, List.mem_cons, not_or, not_or] at h
    exact .derived (Ne.symm h.1) (fun hmark he => hn hmark (congrArg some he))
      (Reference.respelled h.2.1) (Stmt.methodsRespelled methods ho.2 h.2.2 hk)

theorem Stmt.bodyRespelled {choice : Choice} {names : ScopeNames} {marks : List Bool} (body : List Stmt)
    (ho : Stmt.OrdinaryAll body) (h : y ∉ Stmt.namesAll body) (hk : choice.Keeps x (Stmt.scopeIn? body))
    (hn : marks.headD false = true → ∀ s ∈ body, s.named? ≠ some x) :
    Stmt.BodyRespelled x y names marks body (Stmt.respellAll x y choice names marks body) := by
  match body with
  | [] => exact .nil
  | s :: rest =>
    rw [Stmt.namesAll, List.mem_append, not_or] at h
    exact .cons
      (s.respelled ho.1 h.1 (hk.into fun _ => rfl) fun hmark => hn hmark s List.mem_cons_self)
      (Stmt.bodyRespelled rest ho.2 h.2 (hk.past fun _ => rfl)
        fun hmark t ht => hn hmark t (List.mem_cons_of_mem s ht))

theorem Stmt.functionRespelled {choice : Choice} {names : ScopeNames} {marks : List Bool}
    (declaration : FunctionDef) (ho : Stmt.OrdinaryFunction declaration)
    (h : y ∉ Stmt.functionNames declaration) (hk : choice.Keeps x (Stmt.functionScope? declaration)) :
    FunctionDef.Respelled x y names marks declaration
      (Stmt.respellFunction x y choice names marks declaration) := by
  match declaration with
  | ⟨name, params, body⟩ =>
    rw [Stmt.functionNames, List.mem_append, not_or] at h
    have hinside := hk.inside (Stmt.scopeIn?_nil body) fun _ _ => rfl
    exact .intro (choice []) (Identifier.all_respelled params h.1 _)
      (Stmt.bodyRespelled body ho.2.2 h.2 hinside fun hmark => hk [] hmark _ rfl)

theorem Stmt.methodsRespelled {choice : Choice} {names : ScopeNames} {marks : List Bool}
    (methods : List FunctionDef) (ho : Stmt.OrdinaryMethods methods) (h : y ∉ Stmt.methodNames methods)
    (hk : choice.Keeps x (Stmt.methodScope? methods)) :
    FunctionDef.AllRespelled x y names marks methods (Stmt.respellMethods x y choice names marks methods) := by
  match methods with
  | [] => exact .nil
  | declaration :: rest =>
    rw [Stmt.methodNames, List.mem_append, not_or] at h
    exact .cons (Stmt.functionRespelled declaration ho.1 h.1 (hk.into fun _ => rfl))
      (Stmt.methodsRespelled rest ho.2 h.2 (hk.past fun _ => rfl))

end

end

/-! ### The one declaration of a name -/

namespace Stmt

variable {depths : Depths} {names : ScopeNames} {name : String}

theorem Placed.fresh {s : Stmt} (h : s.Placed depths names) (hd : s.declared? = some name) :
    names.Fresh name := by
  match s with
  | var declared initial =>
    cases hd
    exact h.2.1
  | function declaration =>
    cases hd
    exact h.2.1
  | classDef declared none methods | classDef declared (some superclass) methods =>
    cases hd
    exact h.2.1

/-- A statement leaves a scope with the names it had. -/
theorem exists_after_cons (scope : List String) (outer : ScopeNames) (s : Stmt) :
    ∃ later, ScopeNames.after (scope :: outer) s = later :: outer ∧ scope ⊆ later := by
  unfold ScopeNames.after
  split
  · exact ⟨_, rfl, List.subset_cons_self _ _⟩
  · exact ⟨_, rfl, List.Subset.refl _⟩

/-- What is declared in a scope is new to it. -/
theorem PlacedAll.notMem {scope : List String} {outer : ScopeNames} {body : List Stmt}
    (h : PlacedAll depths (scope :: outer) body) {s : Stmt} (hs : s ∈ body)
    (hd : s.declared? = some name) : name ∉ scope := by
  induction body generalizing scope with
  | nil => cases hs
  | cons t rest ih =>
    rcases List.mem_cons.1 hs with rfl | hs
    · exact h.1.fresh hd scope rfl
    · obtain ⟨later, hlater, hsubset⟩ := exists_after_cons scope outer t
      exact fun hmem => ih (hlater ▸ h.2) hs (hsubset hmem)

theorem PlacedAll.of_mem {body : List Stmt} (h : PlacedAll depths names body) {s : Stmt} (hs : s ∈ body) :
    ∃ inner, s.Placed depths inner := by
  induction body generalizing names with
  | nil => cases hs
  | cons t rest ih =>
    rcases List.mem_cons.1 hs with rfl | hs
    · exact ⟨names, h.1⟩
    · exact ih h.2 hs

theorem PlacedAll.notMem_after {scope : List String} {outer : ScopeNames} {s t : Stmt} {rest : List Stmt}
    (h : PlacedAll depths (scope :: outer) (s :: rest)) (hs : s.declared? = some name) (ht : t ∈ rest) :
    t.declared? ≠ some name := by
  intro hd
  have hrest := h.2
  unfold ScopeNames.after at hrest
  rw [hs] at hrest
  exact hrest.notMem ht hd List.mem_cons_self

/-- No function or class has the name of a variable of the same scope. -/
theorem PlacedAll.named?_ne {scope : List String} {outer : ScopeNames} {body : List Stmt}
    (h : PlacedAll depths (scope :: outer) body) {declared : Identifier} {initial : Option Expr}
    (hvar : var declared initial ∈ body) {s : Stmt} (hs : s ∈ body) : s.named? ≠ some declared.text := by
  intro hname
  have hd := declared?_of_named? hname
  induction body generalizing scope with
  | nil => cases hs
  | cons t rest ih =>
    rcases List.mem_cons.1 hvar with rfl | hvar'
    · rcases List.mem_cons.1 hs with rfl | hs'
      · cases hname
      · exact h.notMem_after rfl hs' hd
    · rcases List.mem_cons.1 hs with rfl | hs'
      · exact h.notMem_after hd hvar' rfl
      · obtain ⟨later, hlater, -⟩ := exists_after_cons scope outer t
        exact ih (hlater ▸ h.2) hvar' hs'

end Stmt

/-- The statements of a scope are placed, after its parameters. -/
structure LocalScope.Placed (depths : Depths) (scope : LocalScope) : Prop where
  params : ∀ param ∈ scope.params, OrdinaryName param.text
  body : ∃ outer, Stmt.PlacedAll depths ((scope.params.map Identifier.text).reverse :: outer) scope.body

namespace LocalScope.Placed

variable {depths : Depths} {scope : LocalScope} {x : String}

/-- Nothing else in a scope has the name of a parameter or a variable. -/
theorem named?_ne (h : scope.Placed depths) (hx : scope.Has x) {s : Stmt} (hs : s ∈ scope.body) :
    s.named? ≠ some x := by
  obtain ⟨outer, hbody⟩ := h.body
  rcases hx with ⟨param, hparam, rfl⟩ | ⟨declared, initial, hvar, rfl⟩
  · intro hname
    exact hbody.notMem hs (Stmt.declared?_of_named? hname) (List.mem_reverse.2 (List.mem_map_of_mem hparam))
  · exact hbody.named?_ne hvar hs

theorem ordinaryName (h : scope.Placed depths) (hx : scope.Has x) : OrdinaryName x := by
  obtain ⟨outer, hbody⟩ := h.body
  rcases hx with ⟨param, hparam, rfl⟩ | ⟨declared, initial, hvar, rfl⟩
  · exact h.params param hparam
  · obtain ⟨names, hplaced⟩ := hbody.of_mem hvar
    exact hplaced.1

end LocalScope.Placed

namespace Stmt

variable {depths : Depths}

mutual

/-- Every scope of a statement that is placed is. -/
theorem Placed.scope? {names : ScopeNames} (s : Stmt) (h : s.Placed depths names) {way : Way}
    {scope : LocalScope} (hs : s.scope? way = some scope) : scope.Placed depths := by
  match s, way with
  | block body, [] =>
    cases hs
    exact ⟨nofun, names, h⟩
  | block body, _ :: _ => exact PlacedAll.scopeIn? body h hs
  | conditional _ thenBranch none, _ => exact Placed.scope? thenBranch h.2.2 hs
  | conditional _ thenBranch (some _), .into :: _ => exact Placed.scope? thenBranch h.2.1.2 hs
  | conditional _ _ (some elseBranch), .past :: _ => exact Placed.scope? elseBranch h.2.2.2 hs
  | whileLoop _ body, _ => exact Placed.scope? body h.2.2 hs
  | function declaration, _ => exact PlacedFunction.scope? declaration h.2.2 hs
  | classDef _ none methods, _ => exact PlacedMethods.scope? methods h.2.2 hs
  | classDef _ (some _) methods, _ => exact PlacedMethods.scope? methods h.2.2.2 hs

theorem PlacedAll.scopeIn? {names : ScopeNames} (body : List Stmt) (h : PlacedAll depths names body)
    {way : Way} {scope : LocalScope} (hs : Stmt.scopeIn? body way = some scope) : scope.Placed depths := by
  match body, way with
  | s :: _, .into :: _ => exact Placed.scope? s h.1 hs
  | _ :: rest, .past :: _ => exact PlacedAll.scopeIn? rest h.2 hs

theorem PlacedFunction.scope? {names : ScopeNames} (declaration : FunctionDef)
    (h : PlacedFunction depths names declaration) {way : Way} {scope : LocalScope}
    (hs : Stmt.functionScope? declaration way = some scope) : scope.Placed depths := by
  match declaration, way with
  | ⟨_, params, body⟩, [] =>
    cases hs
    exact ⟨h.2.1, names, h.2.2⟩
  | ⟨_, _, body⟩, _ :: _ => exact PlacedAll.scopeIn? body h.2.2 hs

theorem PlacedMethods.scope? {names : ScopeNames} (methods : List FunctionDef)
    (h : PlacedMethods depths names methods) {way : Way} {scope : LocalScope}
    (hs : Stmt.methodScope? methods way = some scope) : scope.Placed depths := by
  match methods, way with
  | declaration :: _, .into :: _ => exact PlacedFunction.scope? declaration h.1 hs
  | _ :: rest, .past :: _ => exact PlacedMethods.scope? rest h.2 hs

end

end Stmt

/-- A local variable or a parameter can be respelled: in its scope nothing else has its name. -/
theorem Stmt.respellAt_respelled {depths : Depths} {x y : String} {way : Way} {body : List Stmt}
    {scope : LocalScope} (ho : Stmt.OrdinaryAll body) (hp : Stmt.PlacedAll depths [] body)
    (hs : Stmt.scopeIn? body way = some scope) (hx : scope.Has x) (hy : y ∉ Stmt.namesAll body) :
    Stmt.BodyRespelled x y [] [] body (Stmt.respellAt x y way body) := by
  refine Stmt.bodyRespelled body ho hy ?_ nofun
  intro other hother found hfound s hmem
  obtain rfl := of_decide_eq_true hother
  obtain rfl : scope = found := Option.some.inj (hs.symm.trans hfound)
  exact (hp.scopeIn? body hs).named?_ne hx hmem

/-! ### The respelled scope -/

/-- The scope with its own names respelled, and with what is inside it respelled by some choice. -/
def LocalScope.Respells (x y : String) (mark : Bool) (scope other : LocalScope) : Prop :=
  other.params = scope.params.map (Identifier.respell x y mark) ∧
    ∃ choice names marks, other.body = Stmt.respellAll x y choice names (mark :: marks) scope.body

theorem Stmt.var_mem_respellAll {x y : String} {mark : Bool} {choice : Choice} {names : ScopeNames} {marks : List Bool}
    {body : List Stmt} {declared : Identifier} {initial : Option Expr} (h : .var declared initial ∈ body) :
    ∃ initial', .var (declared.respell x y mark) initial' ∈
      Stmt.respellAll x y choice names (mark :: marks) body := by
  induction body generalizing choice names with
  | nil => cases h
  | cons s rest ih =>
    rcases List.mem_cons.1 h with rfl | h
    · exact ⟨_, List.mem_cons_self⟩
    · obtain ⟨initial', hmem⟩ := ih h
      exact ⟨initial', List.mem_cons_of_mem _ hmem⟩

namespace LocalScope.Respells

variable {x y : String} {scope other : LocalScope}

/-- What was called `x` in a chosen scope is called `y`. -/
theorem has (h : scope.Respells x y true other) (hx : scope.Has x) : other.Has y := by
  obtain ⟨hparams, choice, names, marks, hbody⟩ := h
  have hname : respell x y true x = y := if_pos ⟨rfl, rfl⟩
  rcases hx with ⟨param, hparam, rfl⟩ | ⟨declared, initial, hvar, rfl⟩
  · exact .inl ⟨_, hparams ▸ List.mem_map_of_mem hparam, hname⟩
  · obtain ⟨initial', hmem⟩ := Stmt.var_mem_respellAll hvar
    exact .inr ⟨_, initial', hbody ▸ hmem, hname⟩

end LocalScope.Respells

namespace Stmt

variable {x y : String}

mutual

/-- The way to a scope leads to the scope respelled. -/
theorem scope?_respell (s : Stmt) {choice : Choice} {names : ScopeNames} {marks : List Bool} {way : Way}
    {scope : LocalScope} (h : s.scope? way = some scope) :
    ∃ other, (s.respell x y choice names marks).scope? way = some other ∧
      scope.Respells x y (choice way) other := by
  match s, way with
  | block body, [] =>
    cases h
    exact ⟨_, rfl, rfl, _, _, _, rfl⟩
  | block body, turn :: way => exact scopeIn?_respellAll body h
  | conditional _ thenBranch none, _ => exact scope?_respell thenBranch h
  | conditional _ thenBranch (some _), .into :: _ => exact scope?_respell thenBranch h
  | conditional _ _ (some elseBranch), .past :: _ => exact scope?_respell elseBranch h
  | whileLoop _ body, _ => exact scope?_respell body h
  | function declaration, _ => exact functionScope?_respell declaration h
  | classDef _ none methods, _ | classDef _ (some _) methods, _ => exact methodScope?_respell methods h

theorem scopeIn?_respellAll (body : List Stmt) {choice : Choice} {names : ScopeNames} {marks : List Bool}
    {way : Way} {scope : LocalScope} (h : scopeIn? body way = some scope) :
    ∃ other, scopeIn? (respellAll x y choice names marks body) way = some other ∧
      scope.Respells x y (choice way) other := by
  match body, way with
  | s :: _, .into :: _ => exact scope?_respell s h
  | _ :: rest, .past :: _ => exact scopeIn?_respellAll rest h

theorem functionScope?_respell (declaration : FunctionDef) {choice : Choice} {names : ScopeNames}
    {marks : List Bool} {way : Way} {scope : LocalScope} (h : functionScope? declaration way = some scope) :
    ∃ other, functionScope? (respellFunction x y choice names marks declaration) way = some other ∧
      scope.Respells x y (choice way) other := by
  match declaration, way with
  | ⟨_, params, body⟩, [] =>
    cases h
    exact ⟨_, rfl, rfl, _, _, _, rfl⟩
  | ⟨_, _, body⟩, _ :: _ => exact scopeIn?_respellAll body h

theorem methodScope?_respell (methods : List FunctionDef) {choice : Choice} {names : ScopeNames}
    {marks : List Bool} {way : Way} {scope : LocalScope} (h : methodScope? methods way = some scope) :
    ∃ other, methodScope? (respellMethods x y choice names marks methods) way = some other ∧
      scope.Respells x y (choice way) other := by
  match methods, way with
  | declaration :: _, .into :: _ => exact functionScope?_respell declaration h
  | _ :: rest, .past :: _ => exact methodScope?_respell rest h

end

/-- In the respelled program the scope has the new name. -/
theorem scopeIn?_respellAt {way : Way} {body : List Stmt} {scope : LocalScope}
    (h : scopeIn? body way = some scope) (hx : scope.Has x) :
    ∃ other, scopeIn? (respellAt x y way body) way = some other ∧ other.Has y := by
  have hfound : ∃ other, scopeIn? (respellAt x y way body) way = some other ∧
      scope.Respells x y (decide (way = way)) other := scopeIn?_respellAll body h
  obtain ⟨other, hother, hrespells⟩ := hfound
  rw [decide_eq_true rfl] at hrespells
  exact ⟨other, hother, hrespells.has hx⟩

end Stmt

end Lox
