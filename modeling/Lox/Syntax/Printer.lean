import Lox.Number.Text
import Lox.Syntax

/-!
# Printed trees

Trees in parentheses, the operator first. Strings are written as they are, without quotes.
-/

namespace Lox

/-- Each text with a space before it. -/
def spaced (texts : List String) : String := String.join (texts.map (" " ++ ·))

def Literal.treeText : Literal → String
  | number value => value.treeText
  | string value => value
  | bool value => if value then "true" else "false"
  | nil => "nil"

namespace Expr

mutual

def treeText : Expr → String
  | literal value => value.treeText
  | unary operator operand _ => "(" ++ operator.text ++ " " ++ operand.treeText ++ ")"
  | binary left operator right _ =>
    "(" ++ operator.text ++ " " ++ left.treeText ++ " " ++ right.treeText ++ ")"
  | logical left operator right =>
    "(" ++ operator.text ++ " " ++ left.treeText ++ " " ++ right.treeText ++ ")"
  | grouping inner => "(group " ++ inner.treeText ++ ")"
  | reference target => target.name.text
  | assign target value => "(= " ++ target.name.text ++ " " ++ value.treeText ++ ")"
  | call callee arguments _ => "(call " ++ callee.treeText ++ spaced (treeTexts arguments) ++ ")"
  | get object name => "(. " ++ object.treeText ++ " " ++ name.text ++ ")"
  | set object name value =>
    "(= (. " ++ object.treeText ++ " " ++ name.text ++ ") " ++ value.treeText ++ ")"
  | this _ _ => "this"
  | super _ _ method => "(super " ++ method.text ++ ")"

def treeTexts : List Expr → List String
  | [] => []
  | e :: rest => e.treeText :: treeTexts rest

end

end Expr

namespace Stmt

/-- A block of statements with these texts. -/
def blockText (texts : List String) : String := "(block" ++ spaced texts ++ ")"

mutual

def treeText : Stmt → String
  | expression value => "(; " ++ value.treeText ++ ")"
  | print value => "(print " ++ value.treeText ++ ")"
  | var name none => "(var " ++ name.text ++ ")"
  | var name (some initial) => "(var " ++ name.text ++ " " ++ initial.treeText ++ ")"
  | block body => blockText (treeTexts body)
  | conditional condition thenBranch none =>
    "(if " ++ condition.treeText ++ " " ++ thenBranch.treeText ++ ")"
  | conditional condition thenBranch (some elseBranch) =>
    "(if " ++ condition.treeText ++ " " ++ thenBranch.treeText ++ " " ++ elseBranch.treeText ++ ")"
  | whileLoop condition body => "(while " ++ condition.treeText ++ " " ++ body.treeText ++ ")"
  | function declaration => functionText declaration
  | ret _ none => "(return)"
  | ret _ (some value) => "(return " ++ value.treeText ++ ")"
  | classDef name superclass methods =>
    let above := match superclass with
      | some target => " < " ++ target.name.text
      | none => ""
    "(class " ++ name.text ++ above ++ spaced (functionTexts methods) ++ ")"

def treeTexts : List Stmt → List String
  | [] => []
  | s :: rest => s.treeText :: treeTexts rest

def functionText : FunctionDef → String
  | ⟨name, params, body⟩ =>
    "(fun " ++ name.text ++ " (" ++ " ".intercalate (params.map Identifier.text) ++ ") " ++
      blockText (treeTexts body) ++ ")"

def functionTexts : List FunctionDef → List String
  | [] => []
  | f :: rest => functionText f :: functionTexts rest

end

end Stmt

end Lox
