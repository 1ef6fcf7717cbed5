import Mathlib.Data.List.Nodup
import Lox.Proofs.Syntax.Nodes

/-!
# Functions in a tree

The functions and methods that a tree declares: its own, which are made when the tree is executed,
and all of them, with those that are declared inside others.
-/

namespace Lox

namespace Stmt

mutual

/-- The functions and methods that are declared outside any function of the statement. -/
def ownFunctions : Stmt → List FunctionDef
  | block body => ownFunctionsAll body
  | conditional _ thenBranch none => thenBranch.ownFunctions
  | conditional _ thenBranch (some elseBranch) => thenBranch.ownFunctions ++ elseBranch.ownFunctions
  | whileLoop _ body => body.ownFunctions
  | function declaration => [declaration]
  | classDef _ _ methods => methods
  | expression _ | print _ | var _ _ | ret _ _ => []

def ownFunctionsAll : List Stmt → List FunctionDef
  | [] => []
  | s :: rest => s.ownFunctions ++ ownFunctionsAll rest

end

mutual

/-- All functions and methods of the statement. -/
def functions : Stmt → List FunctionDef
  | block body => functionsAll body
  | conditional _ thenBranch none => thenBranch.functions
  | conditional _ thenBranch (some elseBranch) => thenBranch.functions ++ elseBranch.functions
  | whileLoop _ body => body.functions
  | function declaration => functionsOf declaration
  | classDef _ _ methods => functionsOfMethods methods
  | expression _ | print _ | var _ _ | ret _ _ => []

def functionsAll : List Stmt → List FunctionDef
  | [] => []
  | s :: rest => s.functions ++ functionsAll rest

/-- A function and the functions inside it. -/
def functionsOf : FunctionDef → List FunctionDef
  | ⟨name, params, body⟩ => ⟨name, params, body⟩ :: functionsAll body

def functionsOfMethods : List FunctionDef → List FunctionDef
  | [] => []
  | declaration :: rest => functionsOf declaration ++ functionsOfMethods rest

end

theorem functionsOf_eq (declaration : FunctionDef) :
    functionsOf declaration = declaration :: functionsAll declaration.body := by
  obtain ⟨name, params, body⟩ := declaration
  rw [functionsOf]

theorem functionNodes_eq (declaration : FunctionDef) :
    functionNodes declaration = nodesAll declaration.body := by
  obtain ⟨name, params, body⟩ := declaration
  rw [functionNodes]

theorem mem_functionsOfMethods {methods : List FunctionDef} {f : FunctionDef}
    (h : f ∈ methods) : f ∈ functionsOfMethods methods := by
  induction methods with
  | nil => exact absurd h List.not_mem_nil
  | cons declaration rest ih =>
    rw [functionsOfMethods, functionsOf_eq]
    rcases List.mem_cons.1 h with rfl | h
    · exact .head _
    · exact List.mem_append_right _ (ih h)

mutual

theorem ownFunctions_subset (s : Stmt) : s.ownFunctions ⊆ s.functions := by
  match s with
  | block body =>
    rw [ownFunctions, functions]
    exact ownFunctionsAll_subset body
  | conditional _ thenBranch none =>
    rw [ownFunctions, functions]
    exact ownFunctions_subset thenBranch
  | conditional _ thenBranch (some elseBranch) =>
    rw [ownFunctions, functions]
    intro f hf
    rcases List.mem_append.1 hf with hf | hf
    · exact List.mem_append_left _ (ownFunctions_subset thenBranch hf)
    · exact List.mem_append_right _ (ownFunctions_subset elseBranch hf)
  | whileLoop _ body =>
    rw [ownFunctions, functions]
    exact ownFunctions_subset body
  | function declaration =>
    rw [ownFunctions, functions, functionsOf_eq]
    intro f hf
    rw [List.mem_singleton.1 hf]
    exact .head _
  | classDef _ _ methods =>
    rw [ownFunctions, functions]
    exact fun f hf => mem_functionsOfMethods hf
  | expression _ | print _ | var _ _ | ret _ _ => exact List.nil_subset _

theorem ownFunctionsAll_subset (body : List Stmt) : ownFunctionsAll body ⊆ functionsAll body := by
  match body with
  | [] => exact List.nil_subset _
  | s :: rest =>
    rw [ownFunctionsAll, functionsAll]
    intro f hf
    rcases List.mem_append.1 hf with hf | hf
    · exact List.mem_append_left _ (ownFunctions_subset s hf)
    · exact List.mem_append_right _ (ownFunctionsAll_subset rest hf)

end

/-! ### Functions inside functions -/

/-- A collection of functions from one tree with these nodes: it has all that are declared inside
its members, and no node is in two members unless one of them is inside the other. -/
structure Encloses (functions : List FunctionDef) (nodes : List NodeId) : Prop where
  inside : ∀ f ∈ functions, functionsAll f.body ⊆ functions
  sublist : ∀ f ∈ functions, (functionNodes f).Sublist nodes
  nested : nodes.Nodup → ∀ f ∈ functions, ∀ g ∈ functions, ∀ id ∈ functionNodes f,
    id ∈ functionNodes g → f ∈ functionsOf g ∨ g ∈ functionsOf f

namespace Encloses

variable {functions others : List FunctionDef} {nodes more : List NodeId}

theorem nil (nodes : List NodeId) : Encloses [] nodes := ⟨nofun, nofun, nofun⟩

theorem widen (h : Encloses functions nodes) (hsub : nodes.Sublist more) :
    Encloses functions more where
  inside := h.inside
  sublist f hf := (h.sublist f hf).trans hsub
  nested hnodup := h.nested (hnodup.sublist hsub)

/-- Two trees side by side. -/
theorem append (h : Encloses functions nodes) (k : Encloses others more) :
    Encloses (functions ++ others) (nodes ++ more) where
  inside f hf := by
    rcases List.mem_append.1 hf with hf | hf
    · exact List.subset_append_of_subset_left _ (h.inside f hf)
    · exact List.subset_append_of_subset_right _ (k.inside f hf)
  sublist f hf := by
    rcases List.mem_append.1 hf with hf | hf
    · exact (h.sublist f hf).trans (List.sublist_append_left _ _)
    · exact (k.sublist f hf).trans (List.sublist_append_right _ _)
  nested hnodup f hf g hg id hid hid' := by
    obtain ⟨hnodes, hmore, hdisjoint⟩ := List.nodup_append.1 hnodup
    rcases List.mem_append.1 hf with hf | hf <;> rcases List.mem_append.1 hg with hg | hg
    · exact h.nested hnodes f hf g hg id hid hid'
    · exact absurd rfl
        (hdisjoint id ((h.sublist f hf).subset hid) id ((k.sublist g hg).subset hid'))
    · exact absurd rfl
        (hdisjoint id ((h.sublist g hg).subset hid') id ((k.sublist f hf).subset hid))
    · exact k.nested hmore f hf g hg id hid hid'

/-- A function around the functions of its body. -/
theorem function {declaration : FunctionDef}
    (h : Encloses (functionsAll declaration.body) (nodesAll declaration.body)) :
    Encloses (functionsOf declaration) (functionNodes declaration) := by
  rw [functionsOf_eq, functionNodes_eq]
  constructor
  · intro f hf
    rcases List.mem_cons.1 hf with rfl | hf
    · exact List.subset_cons_self _ _
    · exact List.subset_cons_of_subset _ (h.inside f hf)
  · intro f hf
    rcases List.mem_cons.1 hf with rfl | hf
    · rw [functionNodes_eq]
    · exact h.sublist f hf
  · intro hnodup f hf g hg id hid hid'
    rcases List.mem_cons.1 hf with rfl | hf'
    · exact .inr (by rwa [functionsOf_eq])
    · rcases List.mem_cons.1 hg with rfl | hg'
      · exact .inl (by rwa [functionsOf_eq])
      · exact h.nested hnodup f hf' g hg' id hid hid'

end Encloses

mutual

theorem encloses (s : Stmt) : Encloses s.functions s.nodes := by
  match s with
  | block body =>
    rw [functions, nodes]
    exact enclosesAll body
  | conditional condition thenBranch none =>
    rw [functions, nodes]
    exact (encloses thenBranch).widen (List.sublist_append_right _ _)
  | conditional condition thenBranch (some elseBranch) =>
    rw [functions, nodes]
    exact ((encloses thenBranch).widen (List.sublist_append_right _ _)).append (encloses elseBranch)
  | whileLoop condition body =>
    rw [functions, nodes]
    exact (encloses body).widen (List.sublist_append_right _ _)
  | function declaration =>
    rw [functions, nodes]
    exact enclosesFunction declaration
  | classDef _ superclass methods =>
    rw [functions, nodes]
    exact (enclosesMethods methods).widen (List.sublist_append_right _ _)
  | expression _ | print _ | var _ _ | ret _ _ => exact .nil _

theorem enclosesAll (body : List Stmt) : Encloses (functionsAll body) (nodesAll body) := by
  match body with
  | [] => exact .nil _
  | s :: rest =>
    rw [functionsAll, nodesAll]
    exact (encloses s).append (enclosesAll rest)

theorem enclosesFunction (declaration : FunctionDef) :
    Encloses (functionsOf declaration) (functionNodes declaration) := by
  match declaration with
  | ⟨name, params, body⟩ => exact .function (enclosesAll body)

theorem enclosesMethods (methods : List FunctionDef) :
    Encloses (functionsOfMethods methods) (methodNodes methods) := by
  match methods with
  | [] => exact .nil _
  | declaration :: rest =>
    rw [functionsOfMethods, methodNodes]
    exact (enclosesFunction declaration).append (enclosesMethods rest)

end

end Stmt

end Lox
