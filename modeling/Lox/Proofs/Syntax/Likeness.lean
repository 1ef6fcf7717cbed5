import Mathlib.Data.List.Forall2
import Mathlib.Data.Option.Basic
import Lox.Proofs.Syntax.Nodes

/-!
# Likeness of trees

Two trees are alike when they differ only in the numbers of their nodes and in their lines. Which
numbers and which lines may stand for each other is given by a `Likeness`. Reading a text a second
time, or as a part of a longer text, gives a tree like the first.

## Implementation notes

The relation between numbers is left open because two uses need different ones: any two numbers,
when only the shape of a tree matters, and numbers for which the same depth is recorded, when the
trees are to run alike.
-/

namespace Lox

/-- Which node numbers and which lines of two trees stand for each other. -/
structure Likeness where
  node : NodeId → NodeId → Prop
  line : Nat → Nat → Prop

namespace Likeness

/-- The same lines and any numbers. -/
def upToNodes : Likeness := ⟨fun _ _ => True, Eq⟩

/-- The same numbers and the same lines. -/
def same : Likeness := ⟨Eq, Eq⟩

/-- The same shape and the same names. -/
def shape : Likeness := ⟨fun _ _ => True, fun _ _ => True⟩

end Likeness

/-- The same name, on lines that stand for each other. -/
structure Identifier.Alike (r : Likeness) (a b : Identifier) : Prop where
  text : a.text = b.text
  line : r.line a.line b.line

structure Reference.Alike (r : Likeness) (a b : Reference) : Prop where
  node : r.node a.id b.id
  name : a.name.Alike r b.name

inductive Expr.Alike (r : Likeness) : Expr → Expr → Prop where
  | literal (value : Literal) : Alike r (.literal value) (.literal value)
  | unary {operator a b k l} (operand : Alike r a b) (line : r.line k l) :
      Alike r (.unary operator a k) (.unary operator b l)
  | binary {operator a b c d k l} (left : Alike r a b) (right : Alike r c d) (line : r.line k l) :
      Alike r (.binary a operator c k) (.binary b operator d l)
  | logical {operator a b c d} (left : Alike r a b) (right : Alike r c d) :
      Alike r (.logical a operator c) (.logical b operator d)
  | grouping {a b} (inner : Alike r a b) : Alike r (.grouping a) (.grouping b)
  | reference {s t} (target : s.Alike r t) : Alike r (.reference s) (.reference t)
  | assign {s t a b} (target : s.Alike r t) (value : Alike r a b) :
      Alike r (.assign s a) (.assign t b)
  | call {a b as bs k l} (callee : Alike r a b) (arguments : List.Forall₂ (Alike r) as bs)
      (line : r.line k l) : Alike r (.call a as k) (.call b bs l)
  | get {a b x y} (object : Alike r a b) (name : x.Alike r y) : Alike r (.get a x) (.get b y)
  | set {a b x y c d} (object : Alike r a b) (name : x.Alike r y) (value : Alike r c d) :
      Alike r (.set a x c) (.set b y d)
  | this {i j k l} (node : r.node i j) (line : r.line k l) : Alike r (.this i k) (.this j l)
  | super {i j k l x y} (node : r.node i j) (line : r.line k l) (method : x.Alike r y) :
      Alike r (.super i k x) (.super j l y)

mutual

inductive FunctionDef.Alike (r : Likeness) : FunctionDef → FunctionDef → Prop where
  | intro {x y xs ys as bs} (name : x.Alike r y) (params : List.Forall₂ (Identifier.Alike r) xs ys)
      (body : List.Forall₂ (Stmt.Alike r) as bs) : FunctionDef.Alike r ⟨x, xs, as⟩ ⟨y, ys, bs⟩

inductive Stmt.Alike (r : Likeness) : Stmt → Stmt → Prop where
  | expression {a b} (value : a.Alike r b) : Stmt.Alike r (.expression a) (.expression b)
  | print {a b} (value : a.Alike r b) : Stmt.Alike r (.print a) (.print b)
  | var {x y a b} (name : x.Alike r y) (initial : Option.Rel (Expr.Alike r) a b) :
      Stmt.Alike r (.var x a) (.var y b)
  | block {as bs} (body : List.Forall₂ (Stmt.Alike r) as bs) :
      Stmt.Alike r (.block as) (.block bs)
  | conditional {c d a b e f} (condition : c.Alike r d) (thenBranch : Stmt.Alike r a b)
      (elseBranch : Option.Rel (Stmt.Alike r) e f) :
      Stmt.Alike r (.conditional c a e) (.conditional d b f)
  | whileLoop {c d a b} (condition : c.Alike r d) (body : Stmt.Alike r a b) :
      Stmt.Alike r (.whileLoop c a) (.whileLoop d b)
  | function {f g} (declaration : FunctionDef.Alike r f g) :
      Stmt.Alike r (.function f) (.function g)
  | ret {k l a b} (line : r.line k l) (value : Option.Rel (Expr.Alike r) a b) :
      Stmt.Alike r (.ret k a) (.ret l b)
  | classDef {x y s t fs gs} (name : x.Alike r y) (superclass : Option.Rel (Reference.Alike r) s t)
      (methods : List.Forall₂ (FunctionDef.Alike r) fs gs) :
      Stmt.Alike r (.classDef x s fs) (.classDef y t gs)

end

/-- Statements alike one by one. -/
abbrev StmtsAlike (r : Likeness) : List Stmt → List Stmt → Prop := List.Forall₂ (Stmt.Alike r)

theorem Identifier.map_text_eq {r : Likeness} {as bs : List Identifier}
    (h : List.Forall₂ (Identifier.Alike r) as bs) :
    as.map Identifier.text = bs.map Identifier.text := by
  induction h with
  | nil => rfl
  | cons hn _ ih => rw [List.map_cons, List.map_cons, hn.text, ih]

namespace FunctionDef.Alike

variable {r : Likeness} {f g : FunctionDef}

theorem name (h : f.Alike r g) : f.name.Alike r g.name := by
  cases h with
  | intro hn => exact hn

end FunctionDef.Alike

/-! ### One likeness after another -/

/-- What stands for each other by `r` and then by `s` does so by `t`. -/
structure Likeness.Joins (r s t : Likeness) : Prop where
  node {i j k} (h : r.node i j) (h' : s.node j k) : t.node i k
  line {i j k} (h : r.line i j) (h' : s.line j k) : t.line i k

section Join

variable {r s t : Likeness}

theorem Identifier.Alike.trans {a b c : Identifier} (hj : r.Joins s t) (h : a.Alike r b)
    (k : b.Alike s c) : a.Alike t c :=
  ⟨h.text.trans k.text, hj.line h.line k.line⟩

theorem Reference.Alike.trans {a b c : Reference} (hj : r.Joins s t) (h : a.Alike r b)
    (k : b.Alike s c) : a.Alike t c :=
  ⟨hj.node h.node k.node, h.name.trans hj k.name⟩

theorem Identifier.all_alike_trans {as bs cs : List Identifier} (hj : r.Joins s t)
    (h : List.Forall₂ (Identifier.Alike r) as bs) (k : List.Forall₂ (Identifier.Alike s) bs cs) :
    List.Forall₂ (Identifier.Alike t) as cs := by
  induction h generalizing cs with
  | nil =>
    cases k
    exact .nil
  | cons ha _ ih =>
    cases k with
    | cons ka kr => exact .cons (ha.trans hj ka) (ih kr)

mutual

theorem Expr.Alike.trans {a b c : Expr} (hj : r.Joins s t) (h : a.Alike r b)
    (k : b.Alike s c) : a.Alike t c := by
  cases h with
  | literal value =>
    cases k
    exact .literal value
  | unary ha hl => cases k with | unary ka kl => exact .unary (ha.trans hj ka) (hj.line hl kl)
  | binary ha hb hl =>
    cases k with
    | binary ka kb kl => exact .binary (ha.trans hj ka) (hb.trans hj kb) (hj.line hl kl)
  | logical ha hb =>
    cases k with | logical ka kb => exact .logical (ha.trans hj ka) (hb.trans hj kb)
  | grouping ha => cases k with | grouping ka => exact .grouping (ha.trans hj ka)
  | reference ht => cases k with | reference kt => exact .reference (ht.trans hj kt)
  | assign ht ha =>
    cases k with | assign kt ka => exact .assign (ht.trans hj kt) (ha.trans hj ka)
  | call ha hes hl =>
    cases k with
    | call ka kes kl =>
      exact .call (ha.trans hj ka) (Expr.all_alike_trans hj hes kes) (hj.line hl kl)
  | get ha hn => cases k with | get ka kn => exact .get (ha.trans hj ka) (hn.trans hj kn)
  | set ha hn hb =>
    cases k with | set ka kn kb => exact .set (ha.trans hj ka) (hn.trans hj kn) (hb.trans hj kb)
  | this hi hl => cases k with | this ki kl => exact .this (hj.node hi ki) (hj.line hl kl)
  | super hi hl hn =>
    cases k with
    | super ki kl kn => exact .super (hj.node hi ki) (hj.line hl kl) (hn.trans hj kn)

theorem Expr.all_alike_trans {as bs cs : List Expr} (hj : r.Joins s t)
    (h : List.Forall₂ (Expr.Alike r) as bs) (k : List.Forall₂ (Expr.Alike s) bs cs) :
    List.Forall₂ (Expr.Alike t) as cs := by
  cases h with
  | nil =>
    cases k
    exact .nil
  | cons ha has =>
    cases k with | cons ka kas => exact .cons (ha.trans hj ka) (Expr.all_alike_trans hj has kas)

end

theorem Expr.option_alike_trans {a b c : Option Expr} (hj : r.Joins s t)
    (h : Option.Rel (Expr.Alike r) a b) (k : Option.Rel (Expr.Alike s) b c) :
    Option.Rel (Expr.Alike t) a c := by
  cases h with
  | none =>
    cases k
    exact .none
  | some ha => cases k with | some ka => exact .some (ha.trans hj ka)

mutual

/-- Likeness passes from tree to tree. -/
theorem Stmt.Alike.trans {a b c : Stmt} (hj : r.Joins s t) (h : a.Alike r b)
    (k : b.Alike s c) : a.Alike t c := by
  cases h with
  | expression ha => cases k with | expression ka => exact .expression (ha.trans hj ka)
  | print ha => cases k with | print ka => exact .print (ha.trans hj ka)
  | var hn ha =>
    cases k with | var kn ka => exact .var (hn.trans hj kn) (Expr.option_alike_trans hj ha ka)
  | block hb => cases k with | block kb => exact .block (Stmt.all_alike_trans hj hb kb)
  | conditional hc ha he =>
    cases k with
    | conditional kc ka ke =>
      refine .conditional (hc.trans hj kc) (ha.trans hj ka) ?_
      cases he with
      | none =>
        cases ke
        exact .none
      | some he => cases ke with | some ke => exact .some (he.trans hj ke)
  | whileLoop hc hb =>
    cases k with | whileLoop kc kb => exact .whileLoop (hc.trans hj kc) (hb.trans hj kb)
  | function hf => cases k with | function kf => exact .function (hf.trans hj kf)
  | ret hl ha =>
    cases k with | ret kl ka => exact .ret (hj.line hl kl) (Expr.option_alike_trans hj ha ka)
  | classDef hn hs hm =>
    cases k with
    | classDef kn ks km =>
      refine .classDef (hn.trans hj kn) ?_ (FunctionDef.all_alike_trans hj hm km)
      cases hs with
      | none =>
        cases ks
        exact .none
      | some hs => cases ks with | some ks => exact .some (hs.trans hj ks)

theorem Stmt.all_alike_trans {as bs cs : List Stmt} (hj : r.Joins s t) (h : StmtsAlike r as bs)
    (k : StmtsAlike s bs cs) : StmtsAlike t as cs := by
  cases h with
  | nil =>
    cases k
    exact .nil
  | cons ha has =>
    cases k with | cons ka kas => exact .cons (ha.trans hj ka) (Stmt.all_alike_trans hj has kas)

theorem FunctionDef.Alike.trans {f g h : FunctionDef} (hj : r.Joins s t) (hf : f.Alike r g)
    (hg : g.Alike s h) : f.Alike t h := by
  cases hf with
  | intro hn hp hb =>
    cases hg with
    | intro kn kp kb =>
      exact .intro (hn.trans hj kn) (Identifier.all_alike_trans hj hp kp)
        (Stmt.all_alike_trans hj hb kb)

theorem FunctionDef.all_alike_trans {fs gs hs : List FunctionDef} (hj : r.Joins s t)
    (h : List.Forall₂ (FunctionDef.Alike r) fs gs) (k : List.Forall₂ (FunctionDef.Alike s) gs hs) :
    List.Forall₂ (FunctionDef.Alike t) fs hs := by
  cases h with
  | nil =>
    cases k
    exact .nil
  | cons hf hfs =>
    cases k with
    | cons kf kfs => exact .cons (hf.trans hj kf) (FunctionDef.all_alike_trans hj hfs kfs)

end

end Join

/-! ### Trees that are like themselves -/

section Self

variable {r : Likeness}

theorem Identifier.alike_self (hl : ∀ line, r.line line line) (name : Identifier) :
    name.Alike r name := ⟨rfl, hl name.line⟩

theorem Identifier.all_alike_self (hl : ∀ line, r.line line line) (names : List Identifier) :
    List.Forall₂ (Identifier.Alike r) names names :=
  List.forall₂_same.2 fun name _ => name.alike_self hl

mutual

theorem Expr.alike_self (hl : ∀ line, r.line line line) (e : Expr)
    (hn : ∀ id ∈ e.nodes, r.node id id) : e.Alike r e := by
  cases e with
  | literal value => exact .literal value
  | unary _ operand => exact .unary (alike_self hl operand hn) (hl _)
  | binary left _ right =>
    rw [Expr.nodes, List.forall_mem_append] at hn
    exact .binary (alike_self hl left hn.1) (alike_self hl right hn.2) (hl _)
  | logical left _ right =>
    rw [Expr.nodes, List.forall_mem_append] at hn
    exact .logical (alike_self hl left hn.1) (alike_self hl right hn.2)
  | grouping inner => exact .grouping (alike_self hl inner hn)
  | reference target =>
    exact .reference ⟨hn _ (List.mem_singleton_self _), target.name.alike_self hl⟩
  | assign target value =>
    rw [Expr.nodes, List.forall_mem_append] at hn
    exact .assign ⟨hn.2 _ (List.mem_singleton_self _), target.name.alike_self hl⟩
      (alike_self hl value hn.1)
  | call callee arguments =>
    rw [Expr.nodes, List.forall_mem_append] at hn
    exact .call (alike_self hl callee hn.1) (Expr.all_alike_self hl arguments hn.2) (hl _)
  | get object name => exact .get (alike_self hl object hn) (name.alike_self hl)
  | set object name value =>
    rw [Expr.nodes, List.forall_mem_append] at hn
    exact .set (alike_self hl object hn.2) (name.alike_self hl) (alike_self hl value hn.1)
  | this id line => exact .this (hn _ (List.mem_singleton_self _)) (hl line)
  | super id line method =>
    exact .super (hn _ (List.mem_singleton_self _)) (hl line) (method.alike_self hl)

theorem Expr.all_alike_self (hl : ∀ line, r.line line line) (es : List Expr)
    (hn : ∀ id ∈ Expr.nodesAll es, r.node id id) : List.Forall₂ (Expr.Alike r) es es := by
  cases es with
  | nil => exact .nil
  | cons e rest =>
    rw [Expr.nodesAll, List.forall_mem_append] at hn
    exact .cons (alike_self hl e hn.1) (Expr.all_alike_self hl rest hn.2)

end

theorem Expr.option_alike_self (hl : ∀ line, r.line line line) (e : Option Expr)
    (hn : ∀ id ∈ Expr.nodes? e, r.node id id) : Option.Rel (Expr.Alike r) e e := by
  cases e with
  | none => exact .none
  | some e => exact .some (e.alike_self hl hn)

mutual

/-- A tree is like itself if its nodes and lines stand for themselves. -/
theorem Stmt.alike_self (hl : ∀ line, r.line line line) (s : Stmt)
    (hn : ∀ id ∈ s.nodes, r.node id id) : s.Alike r s := by
  match s with
  | .expression value => exact .expression (value.alike_self hl hn)
  | .print value => exact .print (value.alike_self hl hn)
  | .var name initial => exact .var (name.alike_self hl) (Expr.option_alike_self hl initial hn)
  | .block body => exact .block (Stmt.all_alike_self hl body hn)
  | .conditional condition thenBranch none =>
    rw [Stmt.nodes, List.forall_mem_append] at hn
    exact .conditional (condition.alike_self hl hn.1) (Stmt.alike_self hl thenBranch hn.2) .none
  | .conditional condition thenBranch (some elseBranch) =>
    simp only [Stmt.nodes, List.forall_mem_append] at hn
    exact .conditional (condition.alike_self hl hn.1.1) (Stmt.alike_self hl thenBranch hn.1.2)
      (.some (Stmt.alike_self hl elseBranch hn.2))
  | .whileLoop condition body =>
    rw [Stmt.nodes, List.forall_mem_append] at hn
    exact .whileLoop (condition.alike_self hl hn.1) (Stmt.alike_self hl body hn.2)
  | .function declaration => exact .function (FunctionDef.alike_self hl declaration hn)
  | .ret line value => exact .ret (hl line) (Expr.option_alike_self hl value hn)
  | .classDef name superclass methods =>
    rw [Stmt.nodes, List.forall_mem_append] at hn
    refine .classDef (name.alike_self hl) ?_ (FunctionDef.all_alike_self hl methods hn.2)
    cases superclass with
    | none => exact .none
    | some target =>
      exact .some ⟨hn.1 _ (List.mem_singleton_self _), target.name.alike_self hl⟩

theorem Stmt.all_alike_self (hl : ∀ line, r.line line line) (body : List Stmt)
    (hn : ∀ id ∈ Stmt.nodesAll body, r.node id id) : StmtsAlike r body body := by
  match body with
  | [] => exact .nil
  | s :: rest =>
    rw [Stmt.nodesAll, List.forall_mem_append] at hn
    exact .cons (Stmt.alike_self hl s hn.1) (Stmt.all_alike_self hl rest hn.2)

theorem FunctionDef.alike_self (hl : ∀ line, r.line line line) (declaration : FunctionDef)
    (hn : ∀ id ∈ Stmt.functionNodes declaration, r.node id id) :
    declaration.Alike r declaration := by
  match declaration with
  | ⟨name, params, body⟩ =>
    exact .intro (name.alike_self hl) (Identifier.all_alike_self hl params)
      (Stmt.all_alike_self hl body hn)

theorem FunctionDef.all_alike_self (hl : ∀ line, r.line line line) (methods : List FunctionDef)
    (hn : ∀ id ∈ Stmt.methodNodes methods, r.node id id) :
    List.Forall₂ (FunctionDef.Alike r) methods methods := by
  match methods with
  | [] => exact .nil
  | declaration :: rest =>
    rw [Stmt.methodNodes, List.forall_mem_append] at hn
    exact .cons (FunctionDef.alike_self hl declaration hn.1)
      (FunctionDef.all_alike_self hl rest hn.2)

end

end Self

end Lox
