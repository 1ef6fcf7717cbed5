import Lox.Proofs.Resolution.Walk

/-!
# The stack of scopes

Resolution treats its scopes as a stack and its contexts as if they were saved: whatever part of a
program it walks, from whatever state, the scopes around the innermost one and the contexts are
afterwards what they were before, and the faults and the depths are added to. This needs nothing of the
state or the program, so it holds for parts in which faults are found as for others.

## Implementation notes

A part that finds a depth for a node that has one already would overrule it. The nodes of a program that
was read are distinct, and the nodes that have a depth when a part is entered are not among its own
(`Apart`); this is carried along from the program to every part that the walk of it enters.
-/

namespace Lox

/-- No name is lost from the table, and a name that is defined stays so. -/
def Table.GrownTo (before after : Table Bool) : Prop :=
  ∀ name isDefined, before.get? name = some isDefined →
    after.get? name = some isDefined ∨ after.get? name = some true

namespace Table.GrownTo

variable {table before after later : Table Bool}

theorem refl (table : Table Bool) : table.GrownTo table := fun _ _ h => .inl h

theorem trans (h : before.GrownTo after) (k : after.GrownTo later) : before.GrownTo later := by
  intro name isDefined hname
  rcases h name isDefined hname with h | h
  · exact k name isDefined h
  · exact .inr ((k name true h).elim id id)

/-- A name is declared and then defined, which may have been there before. -/
theorem introduced (table : Table Bool) (name : String) :
    table.GrownTo ((table.insert name false).insert name true) := by
  intro other isDefined hother
  by_cases hname : other = name
  · rw [hname, get?_insert_self]
    exact .inr rfl
  · rw [get?_insert_of_ne _ _ hname, get?_insert_of_ne _ _ hname]
    exact .inl hother

end Table.GrownTo

namespace Resolution

/-- Only the innermost scope may have changed, and it has only grown. -/
inductive StackGrown : List (Table Bool) → List (Table Bool) → Prop
  | empty : StackGrown [] []
  | innermost {before after : Table Bool} {outer : List (Table Bool)} (h : before.GrownTo after) :
    StackGrown (before :: outer) (after :: outer)

namespace StackGrown

variable {before after later : List (Table Bool)}

theorem refl : (scopes : List (Table Bool)) → StackGrown scopes scopes
  | [] => .empty
  | table :: _ => .innermost (.refl table)

theorem trans (h : StackGrown before after) (k : StackGrown after later) :
    StackGrown before later := by
  cases h with
  | empty => exact k
  | innermost h => cases k with | innermost k => exact .innermost (h.trans k)

theorem length_eq (h : StackGrown before after) : after.length = before.length := by
  cases h <;> rfl

theorem tail_eq (h : StackGrown before after) : after.tail = before.tail := by cases h <;> rfl

theorem grown (h : StackGrown before after) :
    ∀ table ∈ before.head?, ∃ grown ∈ after.head?, table.GrownTo grown := by
  cases h with
  | empty => exact nofun
  | innermost h =>
    rintro _ ⟨⟩
    exact ⟨_, rfl, h⟩

end StackGrown

/-- From `r` to `s` faults are added, and depths of these nodes. -/
structure Adds (r s : Resolution) (nodes : List NodeId) : Prop where
  faults : r.faults <:+ s.faults
  depths : ∃ found, s.depths = found ++ r.depths ∧ ∀ entry ∈ found, entry.1 ∈ nodes

namespace Adds

variable {r s t : Resolution} {nodes others : List NodeId}

theorem same (hf : s.faults = r.faults) (hd : s.depths = r.depths) : Adds r s [] :=
  ⟨hf ▸ List.suffix_rfl, [], hd, List.forall_mem_nil _⟩

theorem reported (hf : r.faults <:+ s.faults) (hd : s.depths = r.depths) : Adds r s [] :=
  ⟨hf, [], hd, List.forall_mem_nil _⟩

theorem trans (h : Adds r s nodes) (k : Adds s t others) : Adds r t (nodes ++ others) := by
  obtain ⟨hf, found, hd, hmem⟩ := h
  obtain ⟨kf, found', kd, kmem⟩ := k
  refine ⟨hf.trans kf, found' ++ found, by rw [kd, hd, List.append_assoc], fun entry hentry => ?_⟩
  rcases List.mem_append.1 hentry with hentry | hentry
  · exact List.mem_append_right _ (kmem entry hentry)
  · exact List.mem_append_left _ (hmem entry hentry)

theorem mono (h : Adds r s nodes) (hsub : nodes ⊆ others) : Adds r s others := by
  obtain ⟨hf, found, hd, hmem⟩ := h
  exact ⟨hf, found, hd, fun entry hentry => hsub (hmem entry hentry)⟩

end Adds

/-- From `r` to `s` the stack and the contexts have been kept, and something is added for these
nodes. -/
structure Balanced (r s : Resolution) (nodes : List NodeId) : Prop where
  scopes : StackGrown r.scopes s.scopes
  functionContext : s.functionContext = r.functionContext
  classContext : s.classContext = r.classContext
  adds : Adds r s nodes

namespace Balanced

variable {r s t : Resolution} {nodes others : List NodeId}

theorem same (r : Resolution) : Balanced r r [] := ⟨.refl _, rfl, rfl, .same rfl rfl⟩

theorem trans (h : Balanced r s nodes) (k : Balanced s t others) :
    Balanced r t (nodes ++ others) :=
  ⟨h.scopes.trans k.scopes, k.functionContext.trans h.functionContext,
    k.classContext.trans h.classContext, h.adds.trans k.adds⟩

end Balanced

theorem Unmoved.balanced {r s : Resolution} {nodes : List NodeId} (h : Unmoved r s)
    (k : Adds r s nodes) : Balanced r s nodes :=
  ⟨h.scopes ▸ .refl _, h.functionContext, h.classContext, k⟩

/-! ### Expressions -/

theorem report_adds (r : Resolution) (fault : ScopeFault) (line : Nat) :
    Adds r (r.report fault line) [] := .reported ⟨[_], rfl⟩ rfl

theorem locate_adds (r : Resolution) (id : NodeId) (name : String) :
    Adds r (r.locate id name) [id] := by
  unfold locate
  split
  · next depth _ => exact ⟨List.suffix_rfl, [(id, depth)], rfl, by simp⟩
  · exact (Adds.same rfl rfl).mono nofun

theorem reference_adds (r : Resolution) (target : Reference) :
    Adds r (r.reference target) [target.id] := by
  unfold reference
  split
  · exact (report_adds r _ _).trans (locate_adds _ _ _)
  · exact locate_adds _ _ _

mutual

/-- An expression adds depths of its nodes only. -/
theorem expr_adds (r : Resolution) (e : Expr) : Adds r (r.expr e) e.nodes := by
  cases e with
  | literal => exact .same rfl rfl
  | unary _ operand => exact expr_adds r operand
  | binary left _ right | logical left _ right =>
    exact (expr_adds r left).trans (expr_adds _ right)
  | grouping inner => exact expr_adds r inner
  | reference target => exact reference_adds r target
  | assign target value => exact (expr_adds r value).trans (locate_adds _ _ _)
  | call callee arguments => exact (expr_adds r callee).trans (exprs_adds _ arguments)
  | get object => exact expr_adds r object
  | set object _ value => exact (expr_adds r value).trans (expr_adds _ object)
  | this id =>
    rw [expr]
    split
    · exact (report_adds r _ _).mono nofun
    · exact locate_adds r _ _
  | super id =>
    rw [expr]
    split
    · exact (report_adds r _ _).mono nofun
    · exact (report_adds r _ _).mono nofun
    · exact locate_adds r _ _

theorem exprs_adds (r : Resolution) (es : List Expr) : Adds r (r.exprs es) (Expr.nodesAll es) := by
  cases es with
  | nil => exact .same rfl rfl
  | cons e rest => exact (expr_adds r e).trans (exprs_adds _ rest)

end

theorem expr_balanced (r : Resolution) (e : Expr) : Balanced r (r.expr e) e.nodes :=
  (unmoved_expr r e).balanced (expr_adds r e)

theorem unmoved_expr? (r : Resolution) (value : Option Expr) : Unmoved r (r.expr? value) := by
  cases value with
  | none => exact .refl r
  | some e => exact unmoved_expr r e

theorem expr?_adds (r : Resolution) (value : Option Expr) :
    Adds r (r.expr? value) (Expr.nodes? value) := by
  cases value with
  | none => exact .same rfl rfl
  | some e => exact expr_adds r e

/-! ### Declarations -/

variable {r s : Resolution} {nodes : List NodeId}

theorem mark_adds (r : Resolution) (name : String) (isDefined : Bool) :
    Adds r (r.mark name isDefined) [] := by
  unfold mark
  split <;> exact .same rfl rfl

theorem declare_adds (r : Resolution) (name : Identifier) : Adds r (r.declare name) [] := by
  unfold declare
  split
  · exact (mark_adds r _ _).trans (report_adds _ _ _)
  · exact mark_adds r _ _

/-- Between the declaration of a name and its definition only an expression is walked. -/
theorem defined_balanced {name : Identifier} (h : Unmoved (r.declare name) s)
    (k : Adds (r.declare name) s nodes) : Balanced r (s.define name) nodes := by
  obtain ⟨hf, hc⟩ := contexts_mark s name.text true
  obtain ⟨df, dc⟩ := contexts_declare r name
  have hadds : Adds r (s.define name) nodes := by
    have htrans := ((declare_adds r name).trans k).trans (mark_adds s name.text true)
    rwa [List.append_nil] at htrans
  refine ⟨?_, hf.trans (h.functionContext.trans df), hc.trans (h.classContext.trans dc), hadds⟩
  have hscopes : (s.define name).scopes =
      (r.scopes.modifyHead (·.insert name.text false)).modifyHead (·.insert name.text true) := by
    rw [define, scopes_mark, h.scopes, scopes_declare]
  rw [hscopes]
  cases r.scopes with
  | nil => exact .empty
  | cons table outer => exact .innermost (.introduced table name.text)

theorem introduce_balanced (r : Resolution) (name : Identifier) :
    Balanced r ((r.declare name).define name) [] := defined_balanced (.refl _) (.same rfl rfl)

theorem parameters_balanced (r : Resolution) (params : List Identifier) :
    Balanced r (r.parameters params) [] := by
  induction params generalizing r with
  | nil => exact .same r
  | cons param rest ih => exact (introduce_balanced r param).trans (ih _)

theorem checkReturn_adds (r : Resolution) (line : Nat) (hasValue : Bool) :
    Adds r (r.checkReturn line hasValue) [] := by
  have hreported (r : Resolution) (p : Prop) [Decidable p] (fault : ScopeFault) :
      Adds r (if p then r.report fault line else r) [] := by
    split
    · exact report_adds r fault line
    · exact .same rfl rfl
  unfold checkReturn
  exact (hreported r _ _).trans (hreported _ _ _)

/-! ### Scopes that are opened and closed again -/

/-- A scope that was opened is closed again, and the others are the same. -/
theorem closed_scopes {names : List String} (h : Balanced (r.opened names) s nodes) :
    s.closed.scopes = r.scopes := h.scopes.tail_eq

theorem scoped_balanced {names : List String} (h : Balanced (r.opened names) s nodes) :
    Balanced r s.closed nodes :=
  ⟨closed_scopes h ▸ .refl _, h.functionContext, h.classContext, h.adds.faults, h.adds.depths⟩

/-- Where the body of a function is walked. -/
def inFunction (r : Resolution) (context : FunctionContext) (params : List Identifier) : Resolution :=
  (({ r with functionContext := context }).opened []).parameters params

theorem inheriting_adds (r : Resolution) (name : Identifier) (target : Reference) :
    Adds r (r.inheriting name target) [] := by
  unfold inheriting
  split
  · exact .reported ⟨[_], rfl⟩ rfl
  · exact .same rfl rfl

theorem inClass_adds (r : Resolution) (name : Identifier) : Adds r (r.inClass name) [] := by
  have hadds := (introduce_balanced r name).adds
  exact ⟨hadds.faults, hadds.depths⟩

theorem inFunction_adds (r : Resolution) (context : FunctionContext) (params : List Identifier) :
    Adds r (r.inFunction context params) [] := by
  have hadds :=
    (parameters_balanced (({ r with functionContext := context }).opened []) params).adds
  exact ⟨hadds.faults, hadds.depths⟩

theorem superclass_adds (r : Resolution) (name : Identifier) (superclass : Option Reference) :
    Adds r (r.superclass name superclass) (Reference.nodes? superclass) := by
  cases superclass with
  | none => exact .same rfl rfl
  | some target =>
    rw [superclass_some]
    have hadds := (inheriting_adds r name target).trans (reference_adds _ target)
    exact ⟨hadds.faults, hadds.depths⟩

/-- Where the methods of a class are walked. -/
def inMethods (r : Resolution) (name : Identifier) (superclass : Option Reference) : Resolution :=
  ((r.inClass name).superclass name superclass).opened ["this"]

theorem inMethods_adds (r : Resolution) (name : Identifier) (superclass : Option Reference) :
    Adds r (r.inMethods name superclass) (Reference.nodes? superclass) := by
  have hadds := (inClass_adds r name).trans (superclass_adds _ name superclass)
  exact ⟨hadds.faults, hadds.depths⟩

/-- The scopes of `this` and of `super` are closed again, the latter if it was opened. -/
theorem classDef_balanced {name : Identifier} {superclass : Option Reference}
    {methods : List FunctionDef}
    (h : Balanced (r.inMethods name superclass) ((r.inMethods name superclass).methods methods) nodes) :
    Balanced r (r.stmt (.classDef name superclass methods))
      (Reference.nodes? superclass ++ nodes) := by
  have hname := introduce_balanced r name
  have hadds := (inMethods_adds r name superclass).trans h.adds
  have hclosed := closed_scopes h
  cases superclass with
  | none =>
    have hscopes : (r.stmt (.classDef name none methods)).scopes = (r.inClass name).scopes := hclosed
    exact ⟨hscopes ▸ hname.scopes, h.functionContext.trans hname.functionContext, rfl, hadds.faults,
      hadds.depths⟩
  | some target =>
    obtain ⟨hframe, hfunction, -⟩ := superclass_frame (r.inClass name) name target
    have hscopes : (r.stmt (.classDef name (some target) methods)).scopes = (r.inClass name).scopes :=
      congrArg List.tail (hclosed.trans hframe)
    exact ⟨hscopes ▸ hname.scopes,
      (h.functionContext.trans hfunction).trans hname.functionContext, rfl, hadds.faults, hadds.depths⟩

mutual

/-- A statement keeps the stack and the contexts, and adds depths of its nodes only. -/
theorem stmt_balanced (r : Resolution) (s : Stmt) : Balanced r (r.stmt s) s.nodes := by
  match s with
  | .expression value | .print value => exact expr_balanced r value
  | .var name initial => exact defined_balanced (unmoved_expr? _ initial) (expr?_adds _ initial)
  | .block body => exact scoped_balanced (stmts_balanced (r.opened []) body)
  | .conditional condition thenBranch none =>
    exact (expr_balanced r condition).trans (stmt_balanced _ thenBranch)
  | .conditional condition thenBranch (some elseBranch) =>
    exact ((expr_balanced r condition).trans (stmt_balanced _ thenBranch)).trans
      (stmt_balanced _ elseBranch)
  | .whileLoop condition body => exact (expr_balanced r condition).trans (stmt_balanced _ body)
  | .function declaration =>
    exact (introduce_balanced r declaration.name).trans (function_balanced _ .function declaration)
  | .ret line value =>
    exact ((unmoved_checkReturn r line _).balanced (checkReturn_adds r line _)).trans
      ((unmoved_expr? _ value).balanced (expr?_adds _ value))
  | .classDef name superclass methods =>
    exact classDef_balanced (methods_balanced (r.inMethods name superclass) methods)

theorem stmts_balanced (r : Resolution) (body : List Stmt) :
    Balanced r (r.stmts body) (Stmt.nodesAll body) := by
  match body with
  | [] => exact .same r
  | s :: rest => exact (stmt_balanced r s).trans (stmts_balanced _ rest)

theorem function_balanced (r : Resolution) (context : FunctionContext) (declaration : FunctionDef) :
    Balanced r (r.function context declaration) (Stmt.functionNodes declaration) := by
  match declaration with
  | ⟨name, params, body⟩ =>
    have hvisited := (parameters_balanced (({ r with functionContext := context }).opened []) params).trans
      (stmts_balanced _ body)
    exact ⟨closed_scopes hvisited ▸ .refl _, rfl, hvisited.classContext, hvisited.adds.faults,
      hvisited.adds.depths⟩

theorem methods_balanced (r : Resolution) (methods : List FunctionDef) :
    Balanced r (r.methods methods) (Stmt.methodNodes methods) := by
  match methods with
  | [] => exact .same r
  | declaration :: rest =>
    exact (function_balanced r _ declaration).trans (methods_balanced _ rest)

end

end Resolution

end Lox
