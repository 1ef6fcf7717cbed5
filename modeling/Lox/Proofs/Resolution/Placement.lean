import Mathlib.Data.List.Basic
import Lox.Proofs.Syntax.Nodes

/-!
# Placement of references

What resolution promises of a tree: the depth recorded for each reference leads to the innermost
scope around it that has the name, and no depth is recorded for a name that no scope has. With it go
the rules of scoping that a run relies on.

## Implementation notes

Only the names of scopes matter here. An initial value is placed with the name of its variable
declared already, as resolution visits it. A run meets it before the name is bound, so it must not
mention the name: resolution rules out that it reads it, and `Stmt.SelfAssignFree` that it assigns
to it.
-/

namespace Lox

/-- The names of the scopes around a place, innermost scope first. The global scope is left out. -/
abbrev ScopeNames := List (List String)

namespace ScopeNames

/-- The number of scopes inside the innermost one that has this name. -/
def depth? (names : ScopeNames) (name : String) : Option Nat := names.findIdx? (name ∈ ·)

/-- The names after a declaration in the innermost scope, if there is one. -/
def declare : ScopeNames → String → ScopeNames
  | [], _ => []
  | scope :: outer, name => (name :: scope) :: outer

/-- The innermost scope does not have this name yet. -/
def Fresh (names : ScopeNames) (name : String) : Prop := ∀ scope ∈ names.head?, name ∉ scope

variable {names : ScopeNames} {name other : String}

theorem depth?_cons (scope : List String) (names : ScopeNames) (name : String) :
    depth? (scope :: names) name =
      if name ∈ scope then some 0 else (names.depth? name).map (· + 1) := by
  simp [depth?, List.findIdx?_cons]

theorem depth?_cons_of_mem {scope : List String} (h : name ∈ scope) :
    depth? (scope :: names) name = some 0 := by rw [depth?_cons, if_pos h]

theorem depth?_cons_of_not_mem {scope : List String} (h : name ∉ scope) :
    depth? (scope :: names) name = (names.depth? name).map (· + 1) := by
  rw [depth?_cons, if_neg h]

theorem depth?_declare_of_ne (h : other ≠ name) :
    (names.declare name).depth? other = names.depth? other := by
  cases names with
  | nil => rfl
  | cons scope outer => simp [declare, depth?_cons, h]

theorem depth?_declare_self (h : names ≠ []) : (names.declare name).depth? name = some 0 := by
  cases names with
  | nil => exact absurd rfl h
  | cons scope outer => simp [declare, depth?_cons]

theorem declare_ne_nil (h : names ≠ []) : names.declare name ≠ [] := by
  cases names with
  | nil => exact absurd rfl h
  | cons scope outer => simp [declare]

/-- At the depth of a name there is a scope, and it has the name. -/
theorem getElem?_of_depth? {depth : Nat} (h : names.depth? name = some depth) :
    ∃ scope, names[depth]? = some scope ∧ name ∈ scope := by
  obtain ⟨hlt, hmem, -⟩ := List.findIdx?_eq_some_iff_getElem.1 h
  exact ⟨names[depth], List.getElem?_eq_getElem hlt, by simpa using hmem⟩

end ScopeNames

/-- A name that a program may declare. The two others are declared by classes. -/
def OrdinaryName (name : String) : Prop := name ≠ "this" ∧ name ≠ "super"

theorem not_ordinary_this : ¬ OrdinaryName "this" := fun h => h.1 rfl

theorem not_ordinary_super : ¬ OrdinaryName "super" := fun h => h.2 rfl

/-- The depths that are recorded for references. -/
abbrev Depths := NodeId → Option Nat

namespace Expr

mutual

/-- Whether an expression reads a variable of this name. -/
def reads (name : String) : Expr → Bool
  | literal _ | this _ _ | super _ _ _ => false
  | unary _ operand _ => operand.reads name
  | binary left _ right _ => left.reads name || right.reads name
  | logical left _ right => left.reads name || right.reads name
  | grouping inner => inner.reads name
  | reference target => target.name.text = name
  | assign _ value => value.reads name
  | call callee arguments _ => callee.reads name || readsAny name arguments
  | get object _ => object.reads name
  | set object _ value => object.reads name || value.reads name

def readsAny (name : String) : List Expr → Bool
  | [] => false
  | e :: rest => e.reads name || readsAny name rest

end

mutual

/-- Whether an expression assigns to a variable of this name. -/
def assigns (name : String) : Expr → Bool
  | literal _ | this _ _ | super _ _ _ | reference _ => false
  | unary _ operand _ => operand.assigns name
  | binary left _ right _ => left.assigns name || right.assigns name
  | logical left _ right => left.assigns name || right.assigns name
  | grouping inner => inner.assigns name
  | assign target value => target.name.text = name || value.assigns name
  | call callee arguments _ => callee.assigns name || assignsAny name arguments
  | get object _ => object.assigns name
  | set object _ value => object.assigns name || value.assigns name

def assignsAny (name : String) : List Expr → Bool
  | [] => false
  | e :: rest => e.assigns name || assignsAny name rest

end

mutual

/-- The references of an expression have their depths among these scopes. -/
def Placed (depths : Depths) (names : ScopeNames) : Expr → Prop
  | literal _ => True
  | unary _ operand _ => operand.Placed depths names
  | binary left _ right _ => left.Placed depths names ∧ right.Placed depths names
  | logical left _ right => left.Placed depths names ∧ right.Placed depths names
  | grouping inner => inner.Placed depths names
  | reference target => depths target.id = names.depth? target.name.text
  | assign target value => OrdinaryName target.name.text ∧
      depths target.id = names.depth? target.name.text ∧ value.Placed depths names
  | call callee arguments _ => callee.Placed depths names ∧ PlacedAll depths names arguments
  | get object _ => object.Placed depths names
  | set object _ value => object.Placed depths names ∧ value.Placed depths names
  | this id _ => ∃ depth, names.depth? "this" = some depth ∧ depths id = some depth
  | super id _ _ => ∃ depth, names.depth? "this" = some depth ∧
      names.depth? "super" = some (depth + 1) ∧ depths id = some (depth + 1)

def PlacedAll (depths : Depths) (names : ScopeNames) : List Expr → Prop
  | [] => True
  | e :: rest => e.Placed depths names ∧ PlacedAll depths names rest

end

end Expr

/-- The name that a statement declares in the scope around it. -/
def Stmt.declared? : Stmt → Option String
  | var name _ => some name.text
  | function declaration => some declaration.name.text
  | classDef name _ _ => some name.text
  | _ => none

/-- The names of the scopes after a statement. -/
def ScopeNames.after (names : ScopeNames) (s : Stmt) : ScopeNames :=
  match s.declared? with
  | some name => names.declare name
  | none => names

theorem ScopeNames.after_nil (s : Stmt) : ScopeNames.after [] s = [] := by
  unfold ScopeNames.after
  split <;> rfl

/-- The names of a function's parameters, as a scope. -/
def FunctionDef.paramNames (declaration : FunctionDef) : List String :=
  declaration.params.map Identifier.text

namespace Stmt

mutual

/-- The references of a statement have their depths among these scopes, and what it declares is new
to its scope. -/
def Placed (depths : Depths) (names : ScopeNames) : Stmt → Prop
  | expression value => value.Placed depths names
  | print value => value.Placed depths names
  | var name initial => OrdinaryName name.text ∧ names.Fresh name.text ∧ ∀ e ∈ initial,
      e.Placed depths (names.declare name.text) ∧ (names ≠ [] → e.reads name.text = false)
  | block body => PlacedAll depths ([] :: names) body
  | conditional condition thenBranch none => condition.Placed depths names ∧
      thenBranch.declared? = none ∧ thenBranch.Placed depths names
  | conditional condition thenBranch (some elseBranch) => condition.Placed depths names ∧
      (thenBranch.declared? = none ∧ thenBranch.Placed depths names) ∧
      elseBranch.declared? = none ∧ elseBranch.Placed depths names
  | whileLoop condition body => condition.Placed depths names ∧ body.declared? = none ∧
      body.Placed depths names
  | function declaration => OrdinaryName declaration.name.text ∧
      names.Fresh declaration.name.text ∧
      PlacedFunction depths (names.declare declaration.name.text) declaration
  | ret _ value => ∀ e ∈ value, e.Placed depths names
  | classDef name none methods => OrdinaryName name.text ∧ names.Fresh name.text ∧
      PlacedMethods depths (["this"] :: names.declare name.text) methods
  | classDef name (some superclass) methods => OrdinaryName name.text ∧ names.Fresh name.text ∧
      depths superclass.id = names.depth? superclass.name.text ∧
      PlacedMethods depths (["this"] :: ["super"] :: names.declare name.text) methods

def PlacedAll (depths : Depths) (names : ScopeNames) : List Stmt → Prop
  | [] => True
  | s :: rest => s.Placed depths names ∧ PlacedAll depths (names.after s) rest

/-- Parameters and body of a function share a scope. -/
def PlacedFunction (depths : Depths) (names : ScopeNames) : FunctionDef → Prop
  | ⟨_, params, body⟩ => (params.map Identifier.text).Nodup ∧
      (∀ param ∈ params, OrdinaryName param.text) ∧
      PlacedAll depths ((params.map Identifier.text).reverse :: names) body

def PlacedMethods (depths : Depths) (names : ScopeNames) : List FunctionDef → Prop
  | [] => True
  | declaration :: rest =>
    PlacedFunction depths names declaration ∧ PlacedMethods depths names rest

end

mutual

/-- No local variable is assigned to in its own initial value. -/
def SelfAssignFree (isLocal : Bool) : Stmt → Prop
  | expression _ | print _ | ret _ _ => True
  | var name initial => isLocal = true → ∀ e ∈ initial, e.assigns name.text = false
  | block body => SelfAssignFreeAll true body
  | conditional _ thenBranch none => thenBranch.SelfAssignFree isLocal
  | conditional _ thenBranch (some elseBranch) =>
    thenBranch.SelfAssignFree isLocal ∧ elseBranch.SelfAssignFree isLocal
  | whileLoop _ body => body.SelfAssignFree isLocal
  | function declaration => SelfAssignFreeFunction declaration
  | classDef _ _ methods => SelfAssignFreeMethods methods

def SelfAssignFreeAll (isLocal : Bool) : List Stmt → Prop
  | [] => True
  | s :: rest => s.SelfAssignFree isLocal ∧ SelfAssignFreeAll isLocal rest

def SelfAssignFreeFunction : FunctionDef → Prop
  | ⟨_, _, body⟩ => SelfAssignFreeAll true body

def SelfAssignFreeMethods : List FunctionDef → Prop
  | [] => True
  | declaration :: rest => SelfAssignFreeFunction declaration ∧ SelfAssignFreeMethods rest

end

mutual

instance decidableSelfAssignFree (isLocal : Bool) :
    (s : Stmt) → Decidable (s.SelfAssignFree isLocal)
  | expression _ | print _ | ret _ _ => .isTrue trivial
  | var _ none => .isTrue fun _ => nofun
  | var name (some e) => decidable_of_iff (isLocal = true → e.assigns name.text = false)
      (by simp [SelfAssignFree])
  | block body => decidableSelfAssignFreeAll true body
  | conditional _ thenBranch none => decidableSelfAssignFree isLocal thenBranch
  | conditional _ thenBranch (some elseBranch) =>
    have := decidableSelfAssignFree isLocal thenBranch
    have := decidableSelfAssignFree isLocal elseBranch
    instDecidableAnd
  | whileLoop _ body => decidableSelfAssignFree isLocal body
  | function declaration => decidableSelfAssignFreeFunction declaration
  | classDef _ _ methods => decidableSelfAssignFreeMethods methods

instance decidableSelfAssignFreeAll (isLocal : Bool) :
    (body : List Stmt) → Decidable (SelfAssignFreeAll isLocal body)
  | [] => .isTrue trivial
  | s :: rest =>
    have := decidableSelfAssignFree isLocal s
    have := decidableSelfAssignFreeAll isLocal rest
    instDecidableAnd

instance decidableSelfAssignFreeFunction :
    (declaration : FunctionDef) → Decidable (SelfAssignFreeFunction declaration)
  | ⟨_, _, body⟩ => decidableSelfAssignFreeAll true body

instance decidableSelfAssignFreeMethods :
    (methods : List FunctionDef) → Decidable (SelfAssignFreeMethods methods)
  | [] => .isTrue trivial
  | declaration :: rest =>
    have := decidableSelfAssignFreeFunction declaration
    have := decidableSelfAssignFreeMethods rest
    instDecidableAnd

end

end Stmt

section Mention

variable {depths : Depths} {names : ScopeNames} {name : String}

mutual

/-- An expression that does not mention a name is placed alike with and without it. -/
theorem Expr.Placed.of_declare (hname : OrdinaryName name) (e : Expr)
    (h : e.Placed depths (names.declare name)) (hr : e.reads name = false)
    (ha : e.assigns name = false) : e.Placed depths names := by
  cases e with
  | literal => trivial
  | unary _ operand => exact of_declare hname operand h hr ha
  | binary left _ right | logical left _ right =>
    rw [Expr.reads, Bool.or_eq_false_iff] at hr
    rw [Expr.assigns, Bool.or_eq_false_iff] at ha
    exact ⟨of_declare hname left h.1 hr.1 ha.1, of_declare hname right h.2 hr.2 ha.2⟩
  | grouping inner => exact of_declare hname inner h hr ha
  | reference target =>
    have hne : target.name.text ≠ name := of_decide_eq_false hr
    exact h.trans (ScopeNames.depth?_declare_of_ne hne)
  | assign target value =>
    rw [Expr.assigns, Bool.or_eq_false_iff] at ha
    obtain ⟨ho, hd, hv⟩ := h
    have hne : target.name.text ≠ name := of_decide_eq_false ha.1
    exact ⟨ho, hd.trans (ScopeNames.depth?_declare_of_ne hne), of_declare hname value hv hr ha.2⟩
  | call callee arguments =>
    rw [Expr.reads, Bool.or_eq_false_iff] at hr
    rw [Expr.assigns, Bool.or_eq_false_iff] at ha
    exact ⟨of_declare hname callee h.1 hr.1 ha.1, all_of_declare hname arguments h.2 hr.2 ha.2⟩
  | get object => exact of_declare hname object h hr ha
  | set object _ value =>
    rw [Expr.reads, Bool.or_eq_false_iff] at hr
    rw [Expr.assigns, Bool.or_eq_false_iff] at ha
    exact ⟨of_declare hname object h.1 hr.1 ha.1, of_declare hname value h.2 hr.2 ha.2⟩
  | this =>
    obtain ⟨depth, hthis, hd⟩ := h
    exact ⟨depth, (ScopeNames.depth?_declare_of_ne hname.1.symm) ▸ hthis, hd⟩
  | super =>
    obtain ⟨depth, hthis, hsuper, hd⟩ := h
    exact ⟨depth, (ScopeNames.depth?_declare_of_ne hname.1.symm) ▸ hthis,
      (ScopeNames.depth?_declare_of_ne hname.2.symm) ▸ hsuper, hd⟩

theorem Expr.Placed.all_of_declare (hname : OrdinaryName name) (es : List Expr)
    (h : Expr.PlacedAll depths (names.declare name) es) (hr : Expr.readsAny name es = false)
    (ha : Expr.assignsAny name es = false) : Expr.PlacedAll depths names es := by
  cases es with
  | nil => trivial
  | cons e rest =>
    rw [Expr.readsAny, Bool.or_eq_false_iff] at hr
    rw [Expr.assignsAny, Bool.or_eq_false_iff] at ha
    exact ⟨of_declare hname e h.1 hr.1 ha.1, all_of_declare hname rest h.2 hr.2 ha.2⟩

end

end Mention

/-! ### Depths that agree on the nodes of a tree -/

section Congruence

variable {depths others : Depths}

mutual

theorem Expr.Placed.congr {names : ScopeNames} (e : Expr)
    (hd : ∀ id ∈ e.nodes, depths id = others id) (h : e.Placed depths names) :
    e.Placed others names := by
  cases e with
  | literal => trivial
  | unary _ operand => exact congr operand hd h
  | binary left _ right | logical left _ right =>
    rw [Expr.nodes, List.forall_mem_append] at hd
    exact ⟨congr left hd.1 h.1, congr right hd.2 h.2⟩
  | grouping inner => exact congr inner hd h
  | reference target => exact (hd _ (by simp [Expr.nodes])).symm.trans h
  | assign target value =>
    rw [Expr.nodes, List.forall_mem_append] at hd
    exact ⟨h.1, (hd.2 _ (by simp)).symm.trans h.2.1, congr value hd.1 h.2.2⟩
  | call callee arguments =>
    rw [Expr.nodes, List.forall_mem_append] at hd
    exact ⟨congr callee hd.1 h.1, all_congr arguments hd.2 h.2⟩
  | get object => exact congr object hd h
  | set object _ value =>
    rw [Expr.nodes, List.forall_mem_append] at hd
    exact ⟨congr object hd.2 h.1, congr value hd.1 h.2⟩
  | this =>
    obtain ⟨depth, hthis, hid⟩ := h
    exact ⟨depth, hthis, (hd _ (by simp [Expr.nodes])).symm.trans hid⟩
  | super =>
    obtain ⟨depth, hthis, hsuper, hid⟩ := h
    exact ⟨depth, hthis, hsuper, (hd _ (by simp [Expr.nodes])).symm.trans hid⟩

theorem Expr.Placed.all_congr {names : ScopeNames} (es : List Expr)
    (hd : ∀ id ∈ Expr.nodesAll es, depths id = others id) (h : Expr.PlacedAll depths names es) :
    Expr.PlacedAll others names es := by
  cases es with
  | nil => trivial
  | cons e rest =>
    rw [Expr.nodesAll, List.forall_mem_append] at hd
    exact ⟨congr e hd.1 h.1, all_congr rest hd.2 h.2⟩

end

mutual

/-- Only the depths of a tree's own nodes count for its placement. -/
theorem Stmt.Placed.congr {names : ScopeNames} (s : Stmt)
    (hd : ∀ id ∈ s.nodes, depths id = others id) (h : s.Placed depths names) :
    s.Placed others names := by
  match s with
  | .expression value => exact Expr.Placed.congr value hd h
  | .print value => exact Expr.Placed.congr value hd h
  | .var name none => exact ⟨h.1, h.2.1, by simp⟩
  | .var name (some e) =>
    refine ⟨h.1, h.2.1, ?_⟩
    rintro _ ⟨⟩
    have he := h.2.2 e rfl
    exact ⟨Expr.Placed.congr e hd he.1, he.2⟩
  | .block body => exact all_congr body hd h
  | .conditional condition thenBranch none =>
    rw [Stmt.nodes, List.forall_mem_append] at hd
    exact ⟨Expr.Placed.congr condition hd.1 h.1, h.2.1, congr thenBranch hd.2 h.2.2⟩
  | .conditional condition thenBranch (some elseBranch) =>
    simp only [Stmt.nodes, List.forall_mem_append] at hd
    exact ⟨Expr.Placed.congr condition hd.1.1 h.1,
      ⟨h.2.1.1, congr thenBranch hd.1.2 h.2.1.2⟩, h.2.2.1, congr elseBranch hd.2 h.2.2.2⟩
  | .whileLoop condition body =>
    rw [Stmt.nodes, List.forall_mem_append] at hd
    exact ⟨Expr.Placed.congr condition hd.1 h.1, h.2.1, congr body hd.2 h.2.2⟩
  | .function declaration => exact ⟨h.1, h.2.1, function_congr declaration hd h.2.2⟩
  | .ret _ none => exact nofun
  | .ret _ (some e) =>
    rintro _ ⟨⟩
    exact Expr.Placed.congr e hd (h e rfl)
  | .classDef name none methods => exact ⟨h.1, h.2.1, methods_congr methods hd h.2.2⟩
  | .classDef name (some superclass) methods =>
    rw [Stmt.nodes, List.forall_mem_append] at hd
    exact ⟨h.1, h.2.1, (hd.1 _ (by simp [Reference.nodes?])).symm.trans h.2.2.1,
      methods_congr methods hd.2 h.2.2.2⟩

theorem Stmt.Placed.all_congr {names : ScopeNames} (body : List Stmt)
    (hd : ∀ id ∈ Stmt.nodesAll body, depths id = others id) (h : Stmt.PlacedAll depths names body) :
    Stmt.PlacedAll others names body := by
  match body with
  | [] => trivial
  | s :: rest =>
    rw [Stmt.nodesAll, List.forall_mem_append] at hd
    exact ⟨congr s hd.1 h.1, all_congr rest hd.2 h.2⟩

theorem Stmt.Placed.function_congr {names : ScopeNames} (declaration : FunctionDef)
    (hd : ∀ id ∈ Stmt.functionNodes declaration, depths id = others id)
    (h : Stmt.PlacedFunction depths names declaration) :
    Stmt.PlacedFunction others names declaration := by
  match declaration with
  | ⟨_, params, body⟩ => exact ⟨h.1, h.2.1, all_congr body hd h.2.2⟩

theorem Stmt.Placed.methods_congr {names : ScopeNames} (methods : List FunctionDef)
    (hd : ∀ id ∈ Stmt.methodNodes methods, depths id = others id)
    (h : Stmt.PlacedMethods depths names methods) : Stmt.PlacedMethods others names methods := by
  match methods with
  | [] => trivial
  | declaration :: rest =>
    rw [Stmt.methodNodes, List.forall_mem_append] at hd
    exact ⟨function_congr declaration hd.1 h.1, methods_congr rest hd.2 h.2⟩

end

end Congruence

end Lox
