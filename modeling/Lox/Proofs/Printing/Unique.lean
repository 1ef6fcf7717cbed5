import Lox.Proofs.Printing.Readability
import Lox.Proofs.Syntax.Equality
import Lox.Proofs.Syntax.Likeness

/-!
# Printed trees tell trees apart

Two programs without strings and infinite numbers are alike if their trees are printed alike. What a node is
can be read off its S-expression: from the first item, from the number of items where one sign has two uses,
and for an assignment from what is assigned to.

## Implementation notes

An infinite number is printed like the name `inf`, and a string like its contents, so a text says nothing
about a tree that has one of them.
-/

namespace Lox

open SExpr

theorem UnaryOperator.text_injective {a b : UnaryOperator} (h : a.text = b.text) : a = b := by
  cases a <;> cases b <;> first | rfl | exact absurd h (by decide)

theorem BinaryOperator.text_injective {a b : BinaryOperator} (h : a.text = b.text) : a = b := by
  cases a <;> cases b <;> first | rfl | exact absurd h (by decide)

theorem LogicalOperator.text_injective {a b : LogicalOperator} (h : a.text = b.text) : a = b := by
  cases a <;> cases b <;> first | rfl | exact absurd h (by decide)

/-! ### Expressions -/

namespace Expr

/-- What an expression is. A literal, a variable and `this` are all printed as one word. -/
inductive Node where
  | word
  | unary
  | binary
  | logical
  | grouping
  | assign
  | call
  | get
  | set
  | super

def node : Expr → Node
  | literal _ | reference _ | this _ _ => .word
  | unary _ _ _ => .unary
  | binary _ _ _ _ => .binary
  | logical _ _ _ => .logical
  | grouping _ => .grouping
  | assign _ _ => .assign
  | call _ _ _ => .call
  | get _ _ => .get
  | set _ _ _ => .set
  | super _ _ _ => .super

end Expr

/-- What an expression is, read off its S-expression. -/
def SExpr.node : SExpr → Expr.Node
  | .atom _ => .word
  | .list (.atom "call" :: _) => .call
  | .list [.atom "group", _] => .grouping
  | .list [.atom "super", _] => .super
  | .list [_, _] => .unary
  | .list [.atom "=", .atom _, _] => .assign
  | .list [.atom "=", .list _, _] => .set
  | .list [.atom ".", _, _] => .get
  | .list [.atom "and", _, _] => .logical
  | .list [.atom "or", _, _] => .logical
  | .list _ => .binary

namespace Expr

theorem node_sexpr (e : Expr) : e.sexpr.node = e.node := by
  cases e with
  | unary operator => cases operator <;> rfl
  | binary _ operator => cases operator <;> rfl
  | logical _ operator => cases operator <;> rfl
  | _ => rfl

theorem node_eq_of_sexpr {e f : Expr} (h : e.sexpr = f.sexpr) : e.node = f.node := by
  rw [← node_sexpr, h, node_sexpr]

/-- Words that are printed alike are the same. -/
theorem alike_of_word {e f : Expr} (he : ∀ leaf ∈ e.leaves, leaf.Clear)
    (hf : ∀ leaf ∈ f.leaves, leaf.Clear) (hword : e.node = .word) (h : e.sexpr = f.sexpr) :
    e.Alike .shape f := by
  have hword' : f.node = .word := (node_eq_of_sexpr h).symm.trans hword
  cases e with
  | literal value =>
    have hvalue : Leaf.Clear (.literal value) := he _ List.mem_cons_self
    cases f with
    | literal other =>
      have hother : Leaf.Clear (.literal other) := hf _ List.mem_cons_self
      cases hvalue.eq_of_text hother (SExpr.atom.inj h)
      exact .literal value
    | reference target =>
      have hname : Leaf.Clear (.name target.name.text) := hf _ List.mem_cons_self
      cases hvalue.eq_of_text hname (SExpr.atom.inj h)
    | this => exact absurd (SExpr.atom.inj h) hvalue.text_ne_this
    | _ => cases hword'
  | reference target =>
    have hname : Leaf.Clear (.name target.name.text) := he _ List.mem_cons_self
    cases f with
    | literal other =>
      have hother : Leaf.Clear (.literal other) := hf _ List.mem_cons_self
      cases hname.eq_of_text hother (SExpr.atom.inj h)
    | reference other => exact .reference ⟨trivial, SExpr.atom.inj h, trivial⟩
    | this => exact absurd (SExpr.atom.inj h) hname.text_ne_this
    | _ => cases hword'
  | this =>
    cases f with
    | literal other =>
      have hother : Leaf.Clear (.literal other) := hf _ List.mem_cons_self
      exact absurd (SExpr.atom.inj h).symm hother.text_ne_this
    | reference other =>
      have hname : Leaf.Clear (.name other.name.text) := hf _ List.mem_cons_self
      exact absurd (SExpr.atom.inj h).symm hname.text_ne_this
    | this => exact .this trivial trivial
    | _ => cases hword'
  | _ => cases hword

mutual

/-- Expressions with clear leaves are alike if their S-expressions are the same. -/
theorem alike_of_sexpr (e f : Expr) (he : ∀ leaf ∈ e.leaves, leaf.Clear)
    (hf : ∀ leaf ∈ f.leaves, leaf.Clear) (h : e.sexpr = f.sexpr) : e.Alike .shape f := by
  have hnode := node_eq_of_sexpr h
  cases e with
  | literal | reference | this => exact alike_of_word he hf rfl h
  | unary operator operand =>
    cases f with
    | unary other operand' =>
      obtain ⟨hoperator, hoperand⟩ : operator.text = other.text ∧ operand.sexpr = operand'.sexpr := by
        simpa [sexpr] using h
      cases UnaryOperator.text_injective hoperator
      exact .unary (alike_of_sexpr operand operand' he hf hoperand) trivial
    | _ => cases hnode
  | binary left operator right =>
    cases f with
    | binary left' other right' =>
      obtain ⟨hoperator, hleft, hright⟩ : operator.text = other.text ∧ left.sexpr = left'.sexpr ∧
          right.sexpr = right'.sexpr := by
        simpa [sexpr] using h
      rw [leaves, List.forall_mem_append] at he hf
      cases BinaryOperator.text_injective hoperator
      exact .binary (alike_of_sexpr left left' he.1 hf.1 hleft)
        (alike_of_sexpr right right' he.2 hf.2 hright) trivial
    | _ => cases hnode
  | logical left operator right =>
    cases f with
    | logical left' other right' =>
      obtain ⟨hoperator, hleft, hright⟩ : operator.text = other.text ∧ left.sexpr = left'.sexpr ∧
          right.sexpr = right'.sexpr := by
        simpa [sexpr] using h
      rw [leaves, List.forall_mem_append] at he hf
      cases LogicalOperator.text_injective hoperator
      exact .logical (alike_of_sexpr left left' he.1 hf.1 hleft)
        (alike_of_sexpr right right' he.2 hf.2 hright)
    | _ => cases hnode
  | grouping inner =>
    cases f with
    | grouping inner' => exact .grouping (alike_of_sexpr inner inner' he hf (by simpa [sexpr] using h))
    | _ => cases hnode
  | assign target value =>
    cases f with
    | assign target' value' =>
      obtain ⟨hname, hvalue⟩ : target.name.text = target'.name.text ∧ value.sexpr = value'.sexpr := by
        simpa [sexpr] using h
      rw [leaves, List.forall_mem_cons] at he hf
      exact .assign ⟨trivial, hname, trivial⟩ (alike_of_sexpr value value' he.2 hf.2 hvalue)
    | _ => cases hnode
  | call callee arguments =>
    cases f with
    | call callee' arguments' =>
      obtain ⟨hcallee, harguments⟩ : callee.sexpr = callee'.sexpr ∧
          sexprs arguments = sexprs arguments' := by
        simpa [sexpr] using h
      rw [leaves, List.forall_mem_append] at he hf
      exact .call (alike_of_sexpr callee callee' he.1 hf.1 hcallee)
        (all_alike_of_sexprs arguments arguments' he.2 hf.2 harguments) trivial
    | _ => cases hnode
  | get object name =>
    cases f with
    | get object' name' =>
      obtain ⟨hobject, hname⟩ : object.sexpr = object'.sexpr ∧ name.text = name'.text := by
        simpa [sexpr] using h
      rw [leaves, List.forall_mem_append] at he hf
      exact .get (alike_of_sexpr object object' he.1 hf.1 hobject) ⟨hname, trivial⟩
    | _ => cases hnode
  | set object name value =>
    cases f with
    | set object' name' value' =>
      obtain ⟨⟨hobject, hname⟩, hvalue⟩ : (object.sexpr = object'.sexpr ∧ name.text = name'.text) ∧
          value.sexpr = value'.sexpr := by
        simpa [sexpr] using h
      rw [leaves, List.forall_mem_append, List.forall_mem_cons] at he hf
      exact .set (alike_of_sexpr object object' he.1 hf.1 hobject) ⟨hname, trivial⟩
        (alike_of_sexpr value value' he.2.2 hf.2.2 hvalue)
    | _ => cases hnode
  | super _ _ method =>
    cases f with
    | super _ _ method' =>
      have hmethod : method.text = method'.text := by simpa [sexpr] using h
      exact .super trivial trivial ⟨hmethod, trivial⟩
    | _ => cases hnode

theorem all_alike_of_sexprs (es fs : List Expr) (he : ∀ leaf ∈ leavesAll es, leaf.Clear)
    (hf : ∀ leaf ∈ leavesAll fs, leaf.Clear) (h : sexprs es = sexprs fs) :
    List.Forall₂ (Expr.Alike .shape) es fs := by
  match es, fs with
  | [], [] => exact .nil
  | [], f :: fs => cases h
  | e :: es, [] => cases h
  | e :: es, f :: fs =>
    obtain ⟨hhead, htail⟩ := List.cons.inj h
    rw [leavesAll, List.forall_mem_append] at he hf
    exact .cons (alike_of_sexpr e f he.1 hf.1 hhead) (all_alike_of_sexprs es fs he.2 hf.2 htail)

end

theorem option_alike_of_sexprs? {value other : Option Expr} (hv : ∀ leaf ∈ leaves? value, leaf.Clear)
    (ho : ∀ leaf ∈ leaves? other, leaf.Clear) (h : sexprs? value = sexprs? other) :
    Option.Rel (Expr.Alike .shape) value other := by
  cases value with
  | none =>
    cases other with
    | none => exact .none
    | some f => cases h
  | some e =>
    cases other with
    | none => cases h
    | some f => exact .some (alike_of_sexpr e f hv ho (List.cons.inj h).1)

end Expr

/-! ### Statements -/

namespace Stmt

/-- What a statement is. -/
inductive Node where
  | expression
  | print
  | var
  | block
  | conditional
  | whileLoop
  | function
  | ret
  | classDef

def node : Stmt → Node
  | expression _ => .expression
  | print _ => .print
  | var _ _ => .var
  | block _ => .block
  | conditional _ _ _ => .conditional
  | whileLoop _ _ => .whileLoop
  | function _ => .function
  | ret _ _ => .ret
  | classDef _ _ _ => .classDef

end Stmt

/-- What a statement is, read off its S-expression. -/
def SExpr.statementNode : SExpr → Stmt.Node
  | .list (.atom ";" :: _) => .expression
  | .list (.atom "print" :: _) => .print
  | .list (.atom "var" :: _) => .var
  | .list (.atom "block" :: _) => .block
  | .list (.atom "if" :: _) => .conditional
  | .list (.atom "while" :: _) => .whileLoop
  | .list (.atom "fun" :: _) => .function
  | .list (.atom "return" :: _) => .ret
  | _ => .classDef

namespace Stmt

theorem statementNode_sexpr (s : Stmt) : s.sexpr.statementNode = s.node := by
  cases s with
  | conditional _ _ elseBranch => cases elseBranch <;> rfl
  | function declaration => cases declaration; rfl
  | _ => rfl

theorem node_eq_of_sexpr {s t : Stmt} (h : s.sexpr = t.sexpr) : s.node = t.node := by
  rw [← statementNode_sexpr, h, statementNode_sexpr]

theorem parameters_alike_of_sexpr (params others : List Identifier)
    (h : parameterSexpr params = parameterSexpr others) :
    List.Forall₂ (Identifier.Alike .shape) params others := by
  induction params generalizing others with
  | nil =>
    cases others with
    | nil => exact .nil
    | cons other others => cases h
  | cons param params ih =>
    cases others with
    | nil => cases h
    | cons other others =>
      obtain ⟨hhead, htail⟩ := List.cons.inj (SExpr.list.inj h)
      exact .cons ⟨SExpr.atom.inj hhead, trivial⟩ (ih others (congrArg SExpr.list htail))

/-- A superclass is an atom and a method is a list, so a class tells where its methods begin. -/
theorem superclass_alike_of_sexprs {superclass other : Option Reference} {fs gs : List FunctionDef}
    (h : superclassSexprs superclass ++ functionSexprs fs = superclassSexprs other ++ functionSexprs gs) :
    Option.Rel (Reference.Alike .shape) superclass other ∧ functionSexprs fs = functionSexprs gs := by
  have hmethods (target : Reference) (fs : List FunctionDef) (rest : List SExpr) :
      superclassSexprs (some target) ++ rest ≠ functionSexprs fs := by
    cases fs with
    | nil => exact nofun
    | cons f fs =>
      intro heq
      have hhead := (List.cons.inj heq).1
      cases f
      cases hhead
  cases superclass with
  | none =>
    cases other with
    | none => exact ⟨.none, h⟩
    | some target => exact absurd h.symm (hmethods target fs _)
  | some target =>
    cases other with
    | none => exact absurd h (hmethods target gs _)
    | some target' =>
      obtain ⟨hname, hrest⟩ : target.name.text = target'.name.text ∧
          functionSexprs fs = functionSexprs gs := by
        simpa [superclassSexprs] using h
      exact ⟨.some ⟨trivial, hname, trivial⟩, hrest⟩

mutual

/-- Statements with clear leaves are alike if their S-expressions are the same. -/
theorem alike_of_sexpr (s t : Stmt) (hs : ∀ leaf ∈ s.leaves, leaf.Clear)
    (ht : ∀ leaf ∈ t.leaves, leaf.Clear) (h : s.sexpr = t.sexpr) : s.Alike .shape t := by
  have hnode := node_eq_of_sexpr h
  match s with
  | .expression value =>
    cases t with
    | expression value' => exact .expression (value.alike_of_sexpr value' hs ht (by simpa [sexpr] using h))
    | _ => cases hnode
  | .print value =>
    cases t with
    | print value' => exact .print (value.alike_of_sexpr value' hs ht (by simpa [sexpr] using h))
    | _ => cases hnode
  | .block body =>
    cases t with
    | block body' => exact .block (all_alike_of_sexprs body body' hs ht (by simpa [sexpr] using h))
    | _ => cases hnode
  | .whileLoop condition body =>
    cases t with
    | whileLoop condition' body' =>
      obtain ⟨hcondition, hbody⟩ : condition.sexpr = condition'.sexpr ∧ body.sexpr = body'.sexpr := by
        simpa [sexpr] using h
      rw [leaves, List.forall_mem_append] at hs ht
      exact .whileLoop (condition.alike_of_sexpr condition' hs.1 ht.1 hcondition)
        (alike_of_sexpr body body' hs.2 ht.2 hbody)
    | _ => cases hnode
  | .function declaration =>
    cases t with
    | function declaration' => exact .function (function_alike_of_sexpr declaration declaration' hs ht h)
    | _ => cases hnode
  | .var name initial =>
    cases t with
    | var name' initial' =>
      obtain ⟨hname, hinitial⟩ : name.text = name'.text ∧
          Expr.sexprs? initial = Expr.sexprs? initial' := by
        simpa [sexpr] using h
      rw [leaves, List.forall_mem_cons] at hs ht
      exact .var ⟨hname, trivial⟩ (Expr.option_alike_of_sexprs? hs.2 ht.2 hinitial)
    | _ => cases hnode
  | .conditional condition thenBranch none =>
    cases t with
    | conditional condition' thenBranch' elseBranch' =>
      cases elseBranch' with
      | none =>
        obtain ⟨hcondition, hthen⟩ : condition.sexpr = condition'.sexpr ∧
            thenBranch.sexpr = thenBranch'.sexpr := by
          simpa [sexpr] using h
        rw [leaves, List.forall_mem_append] at hs ht
        exact .conditional (condition.alike_of_sexpr condition' hs.1 ht.1 hcondition)
          (alike_of_sexpr thenBranch thenBranch' hs.2 ht.2 hthen) .none
      | some => simp [sexpr] at h
    | _ => cases hnode
  | .conditional condition thenBranch (some elseBranch) =>
    cases t with
    | conditional condition' thenBranch' elseBranch' =>
      cases elseBranch' with
      | none => simp [sexpr] at h
      | some elseBranch' =>
        obtain ⟨hcondition, hthen, helse⟩ : condition.sexpr = condition'.sexpr ∧
            thenBranch.sexpr = thenBranch'.sexpr ∧ elseBranch.sexpr = elseBranch'.sexpr := by
          simpa [sexpr] using h
        rw [leaves, List.forall_mem_append, List.forall_mem_append] at hs ht
        exact .conditional (condition.alike_of_sexpr condition' hs.1.1 ht.1.1 hcondition)
          (alike_of_sexpr thenBranch thenBranch' hs.1.2 ht.1.2 hthen)
          (.some (alike_of_sexpr elseBranch elseBranch' hs.2 ht.2 helse))
    | _ => cases hnode
  | .ret _ value =>
    cases t with
    | ret _ value' =>
      exact .ret trivial (Expr.option_alike_of_sexprs? hs ht (by simpa [sexpr] using h))
    | _ => cases hnode
  | .classDef name superclass methods =>
    cases t with
    | classDef name' superclass' methods' =>
      obtain ⟨hname, hrest⟩ : name.text = name'.text ∧
          superclassSexprs superclass ++ functionSexprs methods =
            superclassSexprs superclass' ++ functionSexprs methods' := by
        simpa [sexpr] using h
      obtain ⟨hsuperclass, hmethods⟩ := superclass_alike_of_sexprs hrest
      rw [leaves, List.forall_mem_cons, List.forall_mem_append] at hs ht
      exact .classDef ⟨hname, trivial⟩ hsuperclass
        (methods_alike_of_sexprs methods methods' hs.2.2 ht.2.2 hmethods)
    | _ => cases hnode

theorem all_alike_of_sexprs (body others : List Stmt) (hs : ∀ leaf ∈ leavesAll body, leaf.Clear)
    (ht : ∀ leaf ∈ leavesAll others, leaf.Clear) (h : sexprs body = sexprs others) :
    StmtsAlike .shape body others := by
  match body, others with
  | [], [] => exact .nil
  | [], t :: others => cases h
  | s :: body, [] => cases h
  | s :: body, t :: others =>
    obtain ⟨hhead, htail⟩ := List.cons.inj h
    rw [leavesAll, List.forall_mem_append] at hs ht
    exact .cons (alike_of_sexpr s t hs.1 ht.1 hhead) (all_alike_of_sexprs body others hs.2 ht.2 htail)

theorem function_alike_of_sexpr (f g : FunctionDef) (hf : ∀ leaf ∈ functionLeaves f, leaf.Clear)
    (hg : ∀ leaf ∈ functionLeaves g, leaf.Clear) (h : functionSexpr f = functionSexpr g) :
    f.Alike .shape g := by
  match f, g with
  | ⟨name, params, body⟩, ⟨name', params', body'⟩ =>
    obtain ⟨hname, hparams, hbody⟩ : name.text = name'.text ∧
        parameterSexpr params = parameterSexpr params' ∧ sexprs body = sexprs body' := by
      simpa [functionSexpr] using h
    rw [functionLeaves, List.forall_mem_cons, List.forall_mem_append] at hf hg
    exact .intro ⟨hname, trivial⟩ (parameters_alike_of_sexpr params params' hparams)
      (all_alike_of_sexprs body body' hf.2.2 hg.2.2 hbody)

theorem methods_alike_of_sexprs (fs gs : List FunctionDef) (hf : ∀ leaf ∈ methodLeaves fs, leaf.Clear)
    (hg : ∀ leaf ∈ methodLeaves gs, leaf.Clear) (h : functionSexprs fs = functionSexprs gs) :
    List.Forall₂ (FunctionDef.Alike .shape) fs gs := by
  match fs, gs with
  | [], [] => exact .nil
  | [], g :: gs => cases h
  | f :: fs, [] => cases h
  | f :: fs, g :: gs =>
    obtain ⟨hhead, htail⟩ := List.cons.inj h
    rw [methodLeaves, List.forall_mem_append] at hf hg
    exact .cons (function_alike_of_sexpr f g hf.1 hg.1 hhead)
      (methods_alike_of_sexprs fs gs hf.2 hg.2 htail)

end

/-- Statements with clear leaves are alike if they are printed alike. -/
theorem alike_of_treeText {s t : Stmt} (hs : ∀ leaf ∈ s.leaves, leaf.Clear)
    (ht : ∀ leaf ∈ t.leaves, leaf.Clear) (h : s.treeText = t.treeText) : s.Alike .shape t := by
  have hend : Text.Stops isAtomChar [] := nofun
  have hchars : s.sexpr.chars ++ [] = t.sexpr.chars ++ [] := by
    rw [← toList_treeText s, ← toList_treeText t, h]
  have hsexpr := (chars_inj s.sexpr t.sexpr (readable s hs) (readable t ht) hend hend hchars).1
  exact alike_of_sexpr s t hs ht hsexpr

theorem all_alike_of_treeText (body others : List Stmt) (hs : ∀ leaf ∈ leavesAll body, leaf.Clear)
    (ht : ∀ leaf ∈ leavesAll others, leaf.Clear)
    (h : body.map treeText = others.map treeText) : StmtsAlike .shape body others := by
  induction body generalizing others with
  | nil =>
    cases others with
    | nil => exact .nil
    | cons t others => cases h
  | cons s body ih =>
    cases others with
    | nil => cases h
    | cons t others =>
      obtain ⟨hhead, htail⟩ := List.cons.inj h
      rw [leavesAll, List.forall_mem_append] at hs ht
      exact .cons (alike_of_treeText hs.1 ht.1 hhead) (ih others hs.2 ht.2 htail)

end Stmt

namespace Reading

/-- A printed tree determines the tree. Two lists of statements were read from the tokens of two texts, and
there is no string and no infinite number in either of them. If the statements of both are printed alike,
one by one, then they differ in the numbers of nodes and in lines at most. -/
theorem alike_of_printed_alike {a b : String} {i j : NodeId} {first second : List Stmt}
    (hfirst : (ofTokens (Scan.ofText a).tokens i).result = .ok first)
    (hsecond : (ofTokens (Scan.ofText b).tokens j).result = .ok second)
    (hplain : ∀ leaf ∈ Stmt.leavesAll first, leaf.isPlain = true)
    (hplain' : ∀ leaf ∈ Stmt.leavesAll second, leaf.isPlain = true)
    (h : first.map Stmt.treeText = second.map Stmt.treeText) : StmtsAlike .shape first second :=
  Stmt.all_alike_of_treeText first second
    (fun leaf hleaf => ⟨spelled_of_ofTokens hfirst leaf hleaf, hplain leaf hleaf⟩)
    (fun leaf hleaf => ⟨spelled_of_ofTokens hsecond leaf hleaf, hplain' leaf hleaf⟩) h

/-- One program on one line and on four, with other numerals. Both minus signs are printed alike. -/
theorem alike_of_printed_alike_spaced :
    let program (i line₁ line₂ line₃ : Nat) : List Stmt :=
      [.var ⟨"x", 1⟩ (some (.binary (.unary .negate (.literal (.number (numeralValue ['2'] []))) line₁)
        .subtract (.literal (.number (numeralValue ['0'] ['5']))) line₁)),
      .conditional (.reference ⟨i, ⟨"x", line₂⟩⟩)
        (.expression (.call (.reference ⟨i + 1, ⟨"f", line₂⟩⟩) [] line₂)) (some (.ret line₃ none))]
    let first := program 0 1 1 1
    let second := program 7 2 3 4
    (ofTokens (Scan.ofText "var x = -2 - 0.5; if (x) f(); else return;").tokens 0).result =
      .ok first ∧
    (ofTokens (Scan.ofText
      "var x\n= - 2.0 - 0.50;\nif (x) f();\nelse return; // x").tokens 7).result = .ok second ∧
    (∀ leaf ∈ Stmt.leavesAll first, leaf.isPlain = true) ∧
    (∀ leaf ∈ Stmt.leavesAll second, leaf.isPlain = true) ∧
    first.map Stmt.treeText = ["(var x (- (- 2.0) 0.5))", "(if x (; (call f)) (return))"] ∧
    second.map Stmt.treeText = first.map Stmt.treeText ∧ StmtsAlike .shape first second := by
  intro program first second
  have hfirst : (ofTokens (Scan.ofText "var x = -2 - 0.5; if (x) f(); else return;").tokens 0).result =
      .ok first := by
    decide +kernel
  have hsecond : (ofTokens (Scan.ofText
      "var x\n= - 2.0 - 0.50;\nif (x) f();\nelse return; // x").tokens 7).result = .ok second := by
    decide +kernel
  have hplain : ∀ leaf ∈ Stmt.leavesAll first, leaf.isPlain = true := by decide +kernel
  have hplain' : ∀ leaf ∈ Stmt.leavesAll second, leaf.isPlain = true := by decide +kernel
  have htexts : first.map Stmt.treeText =
      ["(var x (- (- 2.0) 0.5))", "(if x (; (call f)) (return))"] := by
    decide +kernel
  have hsame : first.map Stmt.treeText = second.map Stmt.treeText := by decide +kernel
  exact ⟨hfirst, hsecond, hplain, hplain', htexts, hsame.symm,
    alike_of_printed_alike hfirst hsecond hplain hplain' hsame⟩

end Reading

end Lox
