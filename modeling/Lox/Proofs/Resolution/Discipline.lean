import Lox.Proofs.Grammar.Numbers
import Lox.Proofs.Resolution.Stack

/-!
# Parts of a walk

A walk of resolution enters the parts of a program one after the other, each in the state that the parts
before it left. Wherever it enters a part of a program that was read, it keeps to the discipline of a
stack.
-/

namespace Lox

namespace Resolution

/-- What a walk does in one go. -/
inductive Part where
  | expr (e : Expr)
  | exprs (es : List Expr)
  | stmt (s : Stmt)
  | stmts (body : List Stmt)
  | function (context : FunctionContext) (declaration : FunctionDef)
  | methods (declarations : List FunctionDef)

namespace Part

def walk (r : Resolution) : Part → Resolution
  | expr e => r.expr e
  | exprs es => r.exprs es
  | stmt s => r.stmt s
  | stmts body => r.stmts body
  | function context declaration => r.function context declaration
  | methods declarations => r.methods declarations

def nodes : Part → List NodeId
  | expr e => e.nodes
  | exprs es => Expr.nodesAll es
  | stmt s => s.nodes
  | stmts body => Stmt.nodesAll body
  | function _ declaration => Stmt.functionNodes declaration
  | methods declarations => Stmt.methodNodes declarations

/-- Whether it is an expression, or several. -/
def isExpression : Part → Bool
  | expr _ | exprs _ => true
  | _ => false

end Part

/-- The walk of a part from `r` comes to a part right inside it, in a state of its own. -/
inductive Enters (r : Resolution) : Part → Resolution → Part → Prop
  | operand {operator e line} : Enters r (.expr (.unary operator e line)) r (.expr e)
  | left {left operator right line} :
    Enters r (.expr (.binary left operator right line)) r (.expr left)
  | right {left operator right line} :
    Enters r (.expr (.binary left operator right line)) (r.expr left) (.expr right)
  | logicalLeft {left operator right} :
    Enters r (.expr (.logical left operator right)) r (.expr left)
  | logicalRight {left operator right} :
    Enters r (.expr (.logical left operator right)) (r.expr left) (.expr right)
  | inner {e} : Enters r (.expr (.grouping e)) r (.expr e)
  | assigned {target value} : Enters r (.expr (.assign target value)) r (.expr value)
  | callee {callee arguments line} :
    Enters r (.expr (.call callee arguments line)) r (.expr callee)
  | arguments {callee arguments line} :
    Enters r (.expr (.call callee arguments line)) (r.expr callee) (.exprs arguments)
  | gotten {object name} : Enters r (.expr (.get object name)) r (.expr object)
  | setValue {object name value} : Enters r (.expr (.set object name value)) r (.expr value)
  | setObject {object name value} :
    Enters r (.expr (.set object name value)) (r.expr value) (.expr object)
  | firstExpr {e rest} : Enters r (.exprs (e :: rest)) r (.expr e)
  | otherExprs {e rest} : Enters r (.exprs (e :: rest)) (r.expr e) (.exprs rest)
  | expression {e} : Enters r (.stmt (.expression e)) r (.expr e)
  | print {e} : Enters r (.stmt (.print e)) r (.expr e)
  | initial {name e} : Enters r (.stmt (.var name (some e))) (r.declare name) (.expr e)
  | block {body} : Enters r (.stmt (.block body)) (r.opened []) (.stmts body)
  | condition {condition thenBranch elseBranch} :
    Enters r (.stmt (.conditional condition thenBranch elseBranch)) r (.expr condition)
  | thenBranch {condition thenBranch elseBranch} :
    Enters r (.stmt (.conditional condition thenBranch elseBranch)) (r.expr condition)
      (.stmt thenBranch)
  | elseBranch {condition thenBranch elseBranch} :
    Enters r (.stmt (.conditional condition thenBranch (some elseBranch)))
      ((r.expr condition).stmt thenBranch) (.stmt elseBranch)
  | loopCondition {condition body} :
    Enters r (.stmt (.whileLoop condition body)) r (.expr condition)
  | loopBody {condition body} :
    Enters r (.stmt (.whileLoop condition body)) (r.expr condition) (.stmt body)
  | function {declaration} :
    Enters r (.stmt (.function declaration)) ((r.declare declaration.name).define declaration.name)
      (.function .function declaration)
  | returned {line e} : Enters r (.stmt (.ret line (some e))) (r.checkReturn line true) (.expr e)
  | superclass {name target declarations} :
    Enters r (.stmt (.classDef name (some target) declarations))
      ((r.inClass name).inheriting name target) (.expr (.reference target))
  | methods {name superclass declarations} :
    Enters r (.stmt (.classDef name superclass declarations)) (r.inMethods name superclass)
      (.methods declarations)
  | firstStmt {s rest} : Enters r (.stmts (s :: rest)) r (.stmt s)
  | otherStmts {s rest} : Enters r (.stmts (s :: rest)) (r.stmt s) (.stmts rest)
  | body {context name params body} :
    Enters r (.function context ⟨name, params, body⟩) (r.inFunction context params) (.stmts body)
  | firstMethod {declaration rest} :
    Enters r (.methods (declaration :: rest)) r
      (.function (methodContext declaration.name) declaration)
  | otherMethods {declaration rest} :
    Enters r (.methods (declaration :: rest))
      (r.function (methodContext declaration.name) declaration) (.methods rest)

/-- The walk of a program comes to a part of it in the state `r`. -/
inductive Meets (statements : List Stmt) : Resolution → Part → Prop
  | program : Meets statements start (.stmts statements)
  | inside {r s : Resolution} {part inner : Part} (h : Meets statements r part)
    (henters : Enters r part s inner) : Meets statements s inner

/-! ### Nodes of their own -/

/-- What is added before a part is entered is for nodes of the parts before it. -/
theorem Enters.adds {r s : Resolution} {part inner : Part} (h : Enters r part s inner) :
    ∃ earlier, Adds r s earlier ∧ (earlier ++ inner.nodes).Sublist part.nodes := by
  have first {s : Resolution} {inner outer later : List NodeId} (hs : Adds r s [])
      (houter : outer = inner ++ later) :
      ∃ earlier, Adds r s earlier ∧ (earlier ++ inner).Sublist outer :=
    ⟨[], hs, houter ▸ List.sublist_append_left inner later⟩
  have last {s : Resolution} {earlier inner outer : List NodeId} (hs : Adds r s earlier)
      (houter : outer = earlier ++ inner) :
      ∃ earlier, Adds r s earlier ∧ (earlier ++ inner).Sublist outer :=
    ⟨earlier, hs, houter ▸ .refl _⟩
  have hsame : Adds r r [] := .same rfl rfl
  cases h with
  | operand | inner | gotten | expression | print => exact last hsame rfl
  | left | logicalLeft | assigned | callee | setValue | firstExpr | loopCondition | firstStmt
  | firstMethod => exact first hsame rfl
  | right | logicalRight | arguments | setObject | otherExprs | loopBody => exact last (expr_adds r _) rfl
  | initial => exact last (declare_adds r _) rfl
  | block => exact last (.same rfl rfl) rfl
  | @condition _ _ elseBranch =>
    cases elseBranch with
    | none => exact first hsame rfl
    | some => exact first hsame (List.append_assoc ..)
  | @thenBranch condition _ elseBranch =>
    cases elseBranch with
    | none => exact last (expr_adds r condition) rfl
    | some => exact ⟨_, expr_adds r condition, List.sublist_append_left _ _⟩
  | elseBranch => exact last ((expr_adds r _).trans (stmt_balanced _ _).adds) rfl
  | function => exact last (introduce_balanced r _).adds rfl
  | returned => exact last (checkReturn_adds r _ _) rfl
  | superclass => exact first ((inClass_adds r _).trans (inheriting_adds _ _ _)) rfl
  | methods => exact last (inMethods_adds r _ _) rfl
  | otherStmts => exact last (stmt_balanced r _).adds rfl
  | body => exact last (inFunction_adds r _ _) rfl
  | otherMethods => exact last (function_balanced r _ _).adds rfl

/-- The nodes are distinct, and none of them has a depth yet. -/
structure Apart (r : Resolution) (nodes : List NodeId) : Prop where
  nodup : nodes.Nodup
  missing : ∀ entry ∈ r.depths, entry.1 ∉ nodes

/-- A part that is entered has nodes of its own if the part around it has. -/
theorem Apart.of_enters {r s : Resolution} {part inner : Part} (h : Apart r part.nodes)
    (henters : Enters r part s inner) : Apart s inner.nodes := by
  obtain ⟨earlier, hadds, hsub⟩ := henters.adds
  obtain ⟨found, hdepths, hfound⟩ := hadds.depths
  obtain ⟨-, hnodup, hdisjoint⟩ := List.nodup_append.1 (h.nodup.sublist hsub)
  refine ⟨hnodup, fun entry hentry hinner => ?_⟩
  rw [hdepths, List.mem_append] at hentry
  rcases hentry with hentry | hentry
  · exact hdisjoint _ (hfound entry hentry) _ hinner rfl
  · exact h.missing entry hentry (hsub.subset (List.mem_append_right _ hinner))

theorem Apart.of_meets {statements : List Stmt} {r : Resolution} {part : Part}
    (hnodup : (Stmt.nodesAll statements).Nodup) (h : Meets statements r part) :
    Apart r part.nodes := by
  induction h with
  | program => exact ⟨hnodup, nofun⟩
  | inside _ henters ih => exact ih.of_enters henters

/-- What has a depth keeps it while a part with other nodes is walked. -/
theorem Adds.lookup_depths {r s : Resolution} {nodes : List NodeId} {id : NodeId} {depth : Nat}
    (h : Adds r s nodes) (hr : Apart r nodes) (hdepth : r.depths.lookup id = some depth) :
    s.depths.lookup id = some depth := by
  obtain ⟨found, hdepths, hfound⟩ := h.depths
  have hid : id ∉ nodes := by
    obtain ⟨_, _, hsplit, -⟩ := List.lookup_eq_some_iff.1 hdepth
    exact hr.missing (id, depth) (by rw [hsplit]; simp)
  have hnone : found.lookup id = none :=
    lookup_eq_none fun entry hentry he => hid (he ▸ hfound entry hentry)
  rw [hdepths, List.lookup_append, hnone, Option.none_or, hdepth]

/-! ### The discipline -/

theorem walk_balanced (r : Resolution) (part : Part) : Balanced r (part.walk r) part.nodes := by
  cases part with
  | expr e => exact expr_balanced r e
  | exprs es => exact (unmoved_exprs r es).balanced (exprs_adds r es)
  | stmt s => exact stmt_balanced r s
  | stmts body => exact stmts_balanced r body
  | function context declaration => exact function_balanced r context declaration
  | methods declarations => exact methods_balanced r declarations

theorem walk_expression {part : Part} (h : part.isExpression = true) (r : Resolution) :
    (part.walk r).scopes = r.scopes := by
  cases part with
  | expr e => exact (unmoved_expr r e).scopes
  | exprs es => exact (unmoved_exprs r es).scopes
  | _ => cases h

/-- The walk of a part from `r` to `s` keeps the scopes as a stack and restores the contexts. What has
been reported and recorded before is still there. -/
structure Disciplined (r : Resolution) (part : Part) (s : Resolution) : Prop where
  height : s.scopes.length = r.scopes.length
  outer : s.scopes.tail = r.scopes.tail
  innermost : ∀ table ∈ r.scopes.head?, ∃ after ∈ s.scopes.head?, table.GrownTo after
  expression : part.isExpression = true → s.scopes = r.scopes
  functionContext : s.functionContext = r.functionContext
  classContext : s.classContext = r.classContext
  faults : r.faults <:+ s.faults
  depths : r.depths <:+ s.depths
  lookup : ∀ id depth, r.depths.lookup id = some depth → s.depths.lookup id = some depth

/-- Resolution is stack-disciplined. Wherever the walk of a program that was read comes to a part of it,
the walk of the part leaves as many scopes as there were and all but the innermost one alone, adds no
name to it if the part is an expression and loses none otherwise, restores the contexts, and keeps the
faults and the depths that were found before. No fault makes an exception. -/
theorem walk_disciplined {tokens : List Token} {firstId : NodeId} {statements : List Stmt}
    (hread : (Reading.ofTokens tokens firstId).result = .ok statements) {r : Resolution} {part : Part}
    (hmeets : Meets statements r part) : Disciplined r part (part.walk r) := by
  have hbalanced := walk_balanced r part
  have hnumbered := (Reading.fresh_ofTokens tokens firstId).numbered statements hread
  have hapart := Apart.of_meets hnumbered.nodup hmeets
  obtain ⟨found, hdepths, -⟩ := hbalanced.adds.depths
  exact
    { height := hbalanced.scopes.length_eq
      outer := hbalanced.scopes.tail_eq
      innermost := hbalanced.scopes.grown
      expression := fun h => walk_expression h r
      functionContext := hbalanced.functionContext
      classContext := hbalanced.classContext
      faults := hbalanced.adds.faults
      depths := ⟨found, hdepths.symm⟩
      lookup := fun _ _ hdepth => hbalanced.adds.lookup_depths hapart hdepth }

/-- A `this` outside every class, in a block. -/
theorem walk_disciplined_misplaced :
    (Reading.ofTokens [⟨.symbol .leftBrace, "\x7b", 1⟩, ⟨.keyword .kwThis, "this", 1⟩,
      ⟨.symbol .semicolon, ";", 1⟩, ⟨.symbol .rightBrace, "\x7d", 1⟩, .atEnd 1] 0).result =
      .ok [.block [.expression (.this 0 1)]] ∧
    Meets [.block [.expression (.this 0 1)]] (start.opened []) (.expr (.this 0 1)) ∧
    Disciplined (start.opened []) (.expr (.this 0 1))
      ⟨[∅], [], [⟨.scoping .thisOutsideClass, 1⟩], .outside, .outside⟩ := by
  have hread : (Reading.ofTokens [⟨.symbol .leftBrace, "\x7b", 1⟩, ⟨.keyword .kwThis, "this", 1⟩,
      ⟨.symbol .semicolon, ";", 1⟩, ⟨.symbol .rightBrace, "\x7d", 1⟩, .atEnd 1] 0).result =
      .ok [.block [.expression (.this 0 1)]] := rfl
  have hmeets : Meets [.block [.expression (.this 0 1)]] (start.opened []) (.expr (.this 0 1)) :=
    (((Meets.program.inside .firstStmt).inside .block).inside .firstStmt).inside .expression
  exact ⟨hread, hmeets, walk_disciplined hread hmeets⟩

end Resolution

end Lox
