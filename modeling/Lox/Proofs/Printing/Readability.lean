import Lox.Proofs.Printing.Leaves
import Lox.Proofs.Printing.Trees

/-!
# Printed trees are readable

Operators, words, names and numerals have no space and no parenthesis in them. So a tree whose leaves are
clear is printed as an S-expression in which all atoms can be told apart.
-/

namespace Lox

open SExpr

/-! ### Atoms -/

namespace SExpr

theorem isAtom_iff {text : String} :
    IsAtom text ↔ (!text.toList.isEmpty && text.toList.all isAtomChar) = true := by
  rw [Bool.and_eq_true, Bool.not_eq_true', List.isEmpty_eq_false_iff, List.all_eq_true]
  exact ⟨fun h => ⟨h.ne_nil, h.chars⟩, fun h => ⟨h.1, h.2⟩⟩

instance (text : String) : Decidable (IsAtom text) := decidable_of_iff _ isAtom_iff.symm

theorem allReadable_iff {xs : List SExpr} : AllReadable xs ↔ ∀ x ∈ xs, x.Readable := by
  induction xs with
  | nil => simp [AllReadable]
  | cons x xs ih => rw [AllReadable, ih, List.forall_mem_cons]

theorem allReadable_append {xs ys : List SExpr} :
    AllReadable (xs ++ ys) ↔ AllReadable xs ∧ AllReadable ys := by
  simp only [allReadable_iff, List.forall_mem_append]

theorem isAtomChar_of_isNamePart {c : Char} (h : IsLetter c ∨ IsDigit c) : isAtomChar c = true := by
  rw [← isNamePart_iff] at h
  by_contra hchar
  have hmem : c = ' ' ∨ c = '(' ∨ c = ')' := by
    simpa [isAtomChar, -not_and, not_and_or, or_assoc] using hchar
  rcases hmem with rfl | rfl | rfl <;> exact absurd h (by decide)

/-- Names and numerals are atoms. -/
theorem IsAtom.of_lexeme {text : String} {kind : Token.Kind} (h : Lexeme text.toList kind)
    (hkind : kind = .identifier ∨ ∃ value, kind = .number value) : IsAtom text := by
  refine ⟨h.ne_nil, fun c hc => ?_⟩
  generalize text.toList = cs at h hc
  cases h with
  | symbol | string | keyword => simp at hkind
  | whole _ hdigits => exact isAtomChar_of_isNamePart (.inr (hdigits c hc))
  | fraction _ _ hdigits =>
    rw [List.forall_mem_append] at hdigits
    rcases List.mem_append.1 hc with hc | hc
    · exact isAtomChar_of_isNamePart (.inr (hdigits.1 c hc))
    · rcases List.mem_cons.1 hc with rfl | hc
      · rfl
      · exact isAtomChar_of_isNamePart (.inr (hdigits.2 c hc))
  | name hd hds =>
    rcases List.mem_cons.1 hc with rfl | hc
    · exact isAtomChar_of_isNamePart (.inl hd)
    · exact isAtomChar_of_isNamePart (hds c hc)

end SExpr

theorem UnaryOperator.isAtom_text (operator : UnaryOperator) : IsAtom operator.text := by
  cases operator <;> decide

theorem BinaryOperator.isAtom_text (operator : BinaryOperator) : IsAtom operator.text := by
  cases operator <;> decide

theorem LogicalOperator.isAtom_text (operator : LogicalOperator) : IsAtom operator.text := by
  cases operator <;> decide

theorem Leaf.Clear.isAtom {leaf : Leaf} (h : leaf.Clear) : IsAtom leaf.text := by
  have hlexeme := h.lexeme
  match leaf with
  | .name text => exact .of_lexeme hlexeme (.inl rfl)
  | .literal (.number value) => exact .of_lexeme hlexeme (.inr ⟨value, rfl⟩)
  | .literal (.string value) => exact absurd h.plain Bool.false_ne_true
  | .literal (.bool true) => exact (by decide : IsAtom "true")
  | .literal (.bool false) => exact (by decide : IsAtom "false")
  | .literal .nil => exact (by decide : IsAtom "nil")

namespace Expr

mutual

theorem readable (e : Expr) (h : ∀ leaf ∈ e.leaves, leaf.Clear) : e.sexpr.Readable := by
  cases e with
  | literal value => exact (h (.literal value) (by simp [leaves])).isAtom
  | unary operator operand => exact ⟨operator.isAtom_text, operand.readable h, trivial⟩
  | binary left operator right =>
    rw [leaves, List.forall_mem_append] at h
    exact ⟨operator.isAtom_text, left.readable h.1, right.readable h.2, trivial⟩
  | logical left operator right =>
    rw [leaves, List.forall_mem_append] at h
    exact ⟨operator.isAtom_text, left.readable h.1, right.readable h.2, trivial⟩
  | grouping inner => exact ⟨(by decide : IsAtom "group"), inner.readable h, trivial⟩
  | reference target => exact (h (.name target.name.text) (by simp [leaves])).isAtom
  | assign target value =>
    rw [leaves, List.forall_mem_cons] at h
    exact ⟨(by decide : IsAtom "="), h.1.isAtom, value.readable h.2, trivial⟩
  | call callee arguments =>
    rw [leaves, List.forall_mem_append] at h
    exact ⟨(by decide : IsAtom "call"), callee.readable h.1, allReadable arguments h.2⟩
  | get object name =>
    rw [leaves, List.forall_mem_append, List.forall_mem_singleton] at h
    exact ⟨(by decide : IsAtom "."), object.readable h.1, h.2.isAtom, trivial⟩
  | set object name value =>
    rw [leaves, List.forall_mem_append, List.forall_mem_cons] at h
    have hget : AllReadable [.atom ".", object.sexpr, .atom name.text] :=
      ⟨(by decide : IsAtom "."), object.readable h.1, h.2.1.isAtom, trivial⟩
    exact ⟨(by decide : IsAtom "="), hget, value.readable h.2.2, trivial⟩
  | this => exact (by decide : IsAtom "this")
  | super _ _ method =>
    rw [leaves, List.forall_mem_singleton] at h
    exact ⟨(by decide : IsAtom "super"), h.isAtom, trivial⟩

theorem allReadable (es : List Expr) (h : ∀ leaf ∈ leavesAll es, leaf.Clear) :
    AllReadable (sexprs es) := by
  cases es with
  | nil => trivial
  | cons e rest =>
    rw [leavesAll, List.forall_mem_append] at h
    exact ⟨e.readable h.1, allReadable rest h.2⟩

end

theorem readable? (value : Option Expr) (h : ∀ leaf ∈ leaves? value, leaf.Clear) :
    AllReadable (sexprs? value) := by
  cases value with
  | none => trivial
  | some e => exact ⟨e.readable h, trivial⟩

end Expr

namespace Stmt

theorem readable_parameters (params : List Identifier)
    (h : ∀ leaf ∈ Identifier.leavesAll params, leaf.Clear) : (parameterSexpr params).Readable := by
  rw [Identifier.leavesAll, List.forall_mem_map] at h
  refine allReadable_iff.2 (List.forall_mem_map.2 fun param hparam => ?_)
  exact (h param hparam).isAtom

theorem readable_superclass (superclass : Option Reference)
    (h : ∀ leaf ∈ Reference.leaves? superclass, leaf.Clear) :
    AllReadable (superclassSexprs superclass) := by
  cases superclass with
  | none => trivial
  | some target => exact ⟨(by decide : IsAtom "<"), (List.forall_mem_singleton.1 h).isAtom, trivial⟩

mutual

/-- In the S-expression of a statement with clear leaves all atoms can be told apart. -/
theorem readable (s : Stmt) (h : ∀ leaf ∈ s.leaves, leaf.Clear) : s.sexpr.Readable := by
  match s with
  | .expression value => exact ⟨(by decide : IsAtom ";"), value.readable h, trivial⟩
  | .print value => exact ⟨(by decide : IsAtom "print"), value.readable h, trivial⟩
  | .var name initial =>
    rw [leaves, List.forall_mem_cons] at h
    exact ⟨(by decide : IsAtom "var"), h.1.isAtom, Expr.readable? initial h.2⟩
  | .block body => exact ⟨(by decide : IsAtom "block"), allReadable body h⟩
  | .conditional condition thenBranch none =>
    rw [leaves, List.forall_mem_append] at h
    exact ⟨(by decide : IsAtom "if"), condition.readable h.1, readable thenBranch h.2, trivial⟩
  | .conditional condition thenBranch (some elseBranch) =>
    rw [leaves, List.forall_mem_append, List.forall_mem_append] at h
    exact ⟨(by decide : IsAtom "if"), condition.readable h.1.1, readable thenBranch h.1.2,
      readable elseBranch h.2, trivial⟩
  | .whileLoop condition body =>
    rw [leaves, List.forall_mem_append] at h
    exact ⟨(by decide : IsAtom "while"), condition.readable h.1, readable body h.2, trivial⟩
  | .function declaration => exact readable_function declaration h
  | .ret _ value => exact ⟨(by decide : IsAtom "return"), Expr.readable? value h⟩
  | .classDef name superclass methods =>
    rw [leaves, List.forall_mem_cons, List.forall_mem_append] at h
    exact ⟨(by decide : IsAtom "class"), h.1.isAtom, allReadable_append.2
      ⟨readable_superclass superclass h.2.1, readable_methods methods h.2.2⟩⟩

theorem allReadable (body : List Stmt) (h : ∀ leaf ∈ leavesAll body, leaf.Clear) :
    AllReadable (sexprs body) := by
  match body with
  | [] => trivial
  | s :: rest =>
    rw [leavesAll, List.forall_mem_append] at h
    exact ⟨readable s h.1, allReadable rest h.2⟩

theorem readable_function (declaration : FunctionDef)
    (h : ∀ leaf ∈ functionLeaves declaration, leaf.Clear) : (functionSexpr declaration).Readable := by
  match declaration with
  | ⟨name, params, body⟩ =>
    rw [functionLeaves, List.forall_mem_cons, List.forall_mem_append] at h
    have hbody : AllReadable (.atom "block" :: sexprs body) :=
      ⟨(by decide : IsAtom "block"), allReadable body h.2.2⟩
    exact ⟨(by decide : IsAtom "fun"), h.1.isAtom, readable_parameters params h.2.1, hbody, trivial⟩

theorem readable_methods (methods : List FunctionDef)
    (h : ∀ leaf ∈ methodLeaves methods, leaf.Clear) : AllReadable (functionSexprs methods) := by
  match methods with
  | [] => trivial
  | f :: rest =>
    rw [methodLeaves, List.forall_mem_append] at h
    exact ⟨readable_function f h.1, readable_methods rest h.2⟩

end

end Stmt

end Lox
