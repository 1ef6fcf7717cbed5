import Lox.Syntax.Printer
import Lox.Proofs.Printing.SExpr

/-!
# Printed trees as S-expressions

The text of a printed tree is that of an S-expression, whose atoms are the operators, the words that
say what a node is, and the leaves of the tree.
-/

namespace Lox

open SExpr

namespace Expr

mutual

def sexpr : Expr → SExpr
  | literal value => .atom value.treeText
  | unary operator operand _ => .list [.atom operator.text, operand.sexpr]
  | binary left operator right _ => .list [.atom operator.text, left.sexpr, right.sexpr]
  | logical left operator right => .list [.atom operator.text, left.sexpr, right.sexpr]
  | grouping inner => .list [.atom "group", inner.sexpr]
  | reference target => .atom target.name.text
  | assign target value => .list [.atom "=", .atom target.name.text, value.sexpr]
  | call callee arguments _ => .list (.atom "call" :: callee.sexpr :: sexprs arguments)
  | get object name => .list [.atom ".", object.sexpr, .atom name.text]
  | set object name value =>
    .list [.atom "=", .list [.atom ".", object.sexpr, .atom name.text], value.sexpr]
  | this _ _ => .atom "this"
  | super _ _ method => .list [.atom "super", .atom method.text]

def sexprs : List Expr → List SExpr
  | [] => []
  | e :: rest => e.sexpr :: sexprs rest

end

/-- A value that may be missing. -/
def sexprs? : Option Expr → List SExpr
  | some e => [e.sexpr]
  | none => []

end Expr

namespace Stmt

/-- The names of parameters, in a list of their own. -/
def parameterSexpr (params : List Identifier) : SExpr :=
  .list (params.map fun param => .atom param.text)

/-- What comes between the name of a class and its methods. -/
def superclassSexprs : Option Reference → List SExpr
  | some target => [.atom "<", .atom target.name.text]
  | none => []

mutual

def sexpr : Stmt → SExpr
  | expression value => .list [.atom ";", value.sexpr]
  | print value => .list [.atom "print", value.sexpr]
  | var name initial => .list (.atom "var" :: .atom name.text :: Expr.sexprs? initial)
  | block body => .list (.atom "block" :: sexprs body)
  | conditional condition thenBranch none =>
    .list [.atom "if", condition.sexpr, thenBranch.sexpr]
  | conditional condition thenBranch (some elseBranch) =>
    .list [.atom "if", condition.sexpr, thenBranch.sexpr, elseBranch.sexpr]
  | whileLoop condition body => .list [.atom "while", condition.sexpr, body.sexpr]
  | function declaration => functionSexpr declaration
  | ret _ value => .list (.atom "return" :: Expr.sexprs? value)
  | classDef name superclass methods =>
    .list (.atom "class" :: .atom name.text :: (superclassSexprs superclass ++ functionSexprs methods))

def sexprs : List Stmt → List SExpr
  | [] => []
  | s :: rest => s.sexpr :: sexprs rest

def functionSexpr : FunctionDef → SExpr
  | ⟨name, params, body⟩ =>
    .list [.atom "fun", .atom name.text, parameterSexpr params, .list (.atom "block" :: sexprs body)]

def functionSexprs : List FunctionDef → List SExpr
  | [] => []
  | f :: rest => functionSexpr f :: functionSexprs rest

end

end Stmt

/-! ### Their texts -/

theorem toList_spaced_cons (text : String) (rest : List String) :
    (spaced (text :: rest)).toList = ' ' :: text.toList ++ (spaced rest).toList := by
  simp [spaced, String.toList_append]

namespace Expr

mutual

theorem toList_treeText (e : Expr) : e.treeText.toList = e.sexpr.chars := by
  cases e with
  | literal | reference | this => rfl
  | unary _ operand =>
    simp [treeText, sexpr, chars, spacedChars, toList_treeText operand]
  | binary left _ right | logical left _ right =>
    simp [treeText, sexpr, chars, spacedChars, toList_treeText left, toList_treeText right]
  | grouping inner => simp [treeText, sexpr, chars, spacedChars, toList_treeText inner]
  | assign _ value => simp [treeText, sexpr, chars, spacedChars, toList_treeText value]
  | call callee arguments =>
    simp [treeText, sexpr, chars, spacedChars, toList_treeText callee, toList_treeTexts arguments]
  | get object => simp [treeText, sexpr, chars, spacedChars, toList_treeText object]
  | set object _ value =>
    simp [treeText, sexpr, chars, spacedChars, toList_treeText object, toList_treeText value]
  | super => simp [treeText, sexpr, chars, spacedChars]

theorem toList_treeTexts (es : List Expr) :
    (spaced (treeTexts es)).toList = spacedChars (sexprs es) := by
  cases es with
  | nil => rfl
  | cons e rest =>
    rw [treeTexts, toList_spaced_cons, toList_treeText e, toList_treeTexts rest]
    rfl

end

end Expr

namespace Stmt

theorem chars_parameterSexpr (params : List Identifier) :
    (parameterSexpr params).chars =
      '(' :: (" ".intercalate (params.map Identifier.text)).toList ++ [')'] := by
  have hspaced (param : Identifier) (rest : List Identifier) :
      spacedChars ((param :: rest).map fun param => .atom param.text) =
        ' ' :: (" ".intercalate ((param :: rest).map Identifier.text)).toList := by
    induction rest generalizing param with
    | nil => simp [spacedChars, chars]
    | cons next rest ih =>
      rw [List.map_cons, spacedChars, ih next]
      simp [chars, String.intercalate_cons_cons, -String.toList_intercalate]
  cases params with
  | nil => rfl
  | cons param rest => rw [parameterSexpr, chars, hspaced param rest, List.tail_cons]

mutual

/-- The text of a statement is that of its S-expression. -/
theorem toList_treeText (s : Stmt) : s.treeText.toList = s.sexpr.chars := by
  match s with
  | .expression value | .print value =>
    simp [treeText, sexpr, chars, spacedChars, value.toList_treeText]
  | .var name none => simp [treeText, sexpr, Expr.sexprs?, chars, spacedChars]
  | .var name (some initial) =>
    simp [treeText, sexpr, Expr.sexprs?, chars, spacedChars, initial.toList_treeText]
  | .block body => simp [treeText, blockText, sexpr, chars, spacedChars, toList_treeTexts body]
  | .conditional condition thenBranch none =>
    simp [treeText, sexpr, chars, spacedChars, condition.toList_treeText, toList_treeText thenBranch]
  | .conditional condition thenBranch (some elseBranch) =>
    simp [treeText, sexpr, chars, spacedChars, condition.toList_treeText, toList_treeText thenBranch,
      toList_treeText elseBranch]
  | .whileLoop condition body =>
    simp [treeText, sexpr, chars, spacedChars, condition.toList_treeText, toList_treeText body]
  | .function declaration => exact toList_functionText declaration
  | .ret _ none => simp [treeText, sexpr, Expr.sexprs?, chars, spacedChars]
  | .ret _ (some value) =>
    simp [treeText, sexpr, Expr.sexprs?, chars, spacedChars, value.toList_treeText]
  | .classDef name none methods =>
    simp [treeText, sexpr, superclassSexprs, chars, spacedChars, toList_functionTexts methods]
  | .classDef name (some target) methods =>
    simp [treeText, sexpr, superclassSexprs, chars, spacedChars, toList_functionTexts methods]

theorem toList_treeTexts (body : List Stmt) :
    (spaced (treeTexts body)).toList = spacedChars (sexprs body) := by
  match body with
  | [] => rfl
  | s :: rest =>
    rw [treeTexts, toList_spaced_cons, toList_treeText s, toList_treeTexts rest]
    rfl

theorem toList_functionText (declaration : FunctionDef) :
    (functionText declaration).toList = (functionSexpr declaration).chars := by
  match declaration with
  | ⟨name, params, body⟩ =>
    simp [functionText, blockText, functionSexpr, chars_parameterSexpr, chars, spacedChars,
      toList_treeTexts body, -String.toList_intercalate]

theorem toList_functionTexts (methods : List FunctionDef) :
    (spaced (functionTexts methods)).toList = spacedChars (functionSexprs methods) := by
  match methods with
  | [] => rfl
  | f :: rest =>
    rw [functionTexts, toList_spaced_cons, toList_functionText f, toList_functionTexts rest]
    rfl

end

end Stmt

end Lox
