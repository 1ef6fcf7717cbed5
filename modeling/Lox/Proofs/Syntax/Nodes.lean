import Lox.Syntax

/-!
# Numbers of nodes

The numbers of the references in a tree, in the order in which resolution visits them, and the
intervals from which reading takes them.
-/

namespace Lox

namespace Expr

mutual

def nodes : Expr → List NodeId
  | literal _ => []
  | unary _ operand _ => operand.nodes
  | binary left _ right _ => left.nodes ++ right.nodes
  | logical left _ right => left.nodes ++ right.nodes
  | grouping inner => inner.nodes
  | reference target => [target.id]
  | assign target value => value.nodes ++ [target.id]
  | call callee arguments _ => callee.nodes ++ nodesAll arguments
  | get object _ => object.nodes
  | set object _ value => value.nodes ++ object.nodes
  | this id _ => [id]
  | super id _ _ => [id]

def nodesAll : List Expr → List NodeId
  | [] => []
  | e :: rest => e.nodes ++ nodesAll rest

end

/-- The numbers in a value that may be missing. -/
def nodes? : Option Expr → List NodeId
  | some e => e.nodes
  | none => []

end Expr

/-- The number in the superclass clause of a class. -/
def Reference.nodes? : Option Reference → List NodeId
  | some target => [target.id]
  | none => []

namespace Stmt

mutual

def nodes : Stmt → List NodeId
  | expression value => value.nodes
  | print value => value.nodes
  | var _ initial => Expr.nodes? initial
  | block body => nodesAll body
  | conditional condition thenBranch none => condition.nodes ++ thenBranch.nodes
  | conditional condition thenBranch (some elseBranch) =>
    condition.nodes ++ thenBranch.nodes ++ elseBranch.nodes
  | whileLoop condition body => condition.nodes ++ body.nodes
  | function declaration => functionNodes declaration
  | ret _ value => Expr.nodes? value
  | classDef _ superclass methods => Reference.nodes? superclass ++ methodNodes methods

def nodesAll : List Stmt → List NodeId
  | [] => []
  | s :: rest => s.nodes ++ nodesAll rest

def functionNodes : FunctionDef → List NodeId
  | ⟨_, _, body⟩ => nodesAll body

def methodNodes : List FunctionDef → List NodeId
  | [] => []
  | declaration :: rest => functionNodes declaration ++ methodNodes rest

end

end Stmt

/-- The numbers `ids` are distinct and were taken from `low` on, before `high`. -/
structure Numbered (low high : Nat) (ids : List Nat) : Prop where
  le : low ≤ high
  nodup : ids.Nodup
  mem : ∀ i ∈ ids, low ≤ i ∧ i < high

namespace Numbered

variable {a b c : Nat} {ids others : List Nat}

theorem nil (h : a ≤ b) : Numbered a b [] := ⟨h, List.nodup_nil, by simp⟩

/-- The next number, taken alone. -/
theorem next (a : Nat) : Numbered a (a + 1) [a] := ⟨by omega, by simp, by simp⟩

/-- Numbers taken one group after the other. -/
theorem append (h : Numbered a b ids) (k : Numbered b c others) :
    Numbered a c (ids ++ others) := by
  refine ⟨Nat.le_trans h.le k.le, List.nodup_append.2 ⟨h.nodup, k.nodup, ?_⟩, ?_⟩
  · intro i hi j hj
    have := h.mem i hi
    have := k.mem j hj
    omega
  · intro i hi
    have := h.le
    have := k.le
    rcases List.mem_append.1 hi with hi | hi
    · have := h.mem i hi
      omega
    · have := k.mem i hi
      omega

theorem perm (h : Numbered a b ids) (hp : ids.Perm others) : Numbered a b others :=
  ⟨h.le, hp.nodup_iff.1 h.nodup, fun i hi => h.mem i (hp.mem_iff.2 hi)⟩

/-- Numbers visited in another order than they were taken in. -/
theorem append_comm (h : Numbered a b ids) (k : Numbered b c others) :
    Numbered a c (others ++ ids) := (h.append k).perm List.perm_append_comm

/-- Numbers that are taken and given up leave a gap. -/
theorem widen (h : Numbered b c ids) (hab : a ≤ b) : Numbered a c ids :=
  ⟨Nat.le_trans hab h.le, h.nodup, fun i hi => ⟨Nat.le_trans hab (h.mem i hi).1, (h.mem i hi).2⟩⟩

end Numbered

end Lox
