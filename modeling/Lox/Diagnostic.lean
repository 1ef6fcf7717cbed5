import Lox.Token

/-!
# Diagnostics

What can be wrong with a program before it runs. A diagnostic is a cause and a line; the wording is
given once, by the `message` of each kind of cause.
-/

namespace Lox

/-- Text that is no token. -/
inductive LexicalFault where
  | unexpectedCharacter (c : Char)
  | unterminatedString
deriving DecidableEq

def LexicalFault.message : LexicalFault → String
  | unexpectedCharacter c => "Unexpected character: " ++ c.toString
  | unterminatedString => "Unterminated string."

/-- Whether a function is declared on its own or in a class. -/
inductive FunctionRole where
  | function
  | method
deriving DecidableEq

def FunctionRole.text : FunctionRole → String
  | function => "function"
  | method => "method"

/-- What a name that the grammar asks for would name. -/
inductive NameRole where
  | ofClass
  | ofSuperclass
  | ofFunction (role : FunctionRole)
  | ofParameter
  | ofVariable
  | ofProperty
  | ofSuperclassMethod
deriving DecidableEq

def NameRole.text : NameRole → String
  | ofClass => "class name"
  | ofSuperclass => "superclass name"
  | ofFunction role => role.text ++ " name"
  | ofParameter => "parameter name"
  | ofVariable => "variable name"
  | ofProperty => "property name after '.'"
  | ofSuperclassMethod => "superclass method name"

/-- Where a symbol that the grammar asks for would stand. -/
inductive Place where
  | beforeClassBody
  | afterClassBody
  | afterName (role : FunctionRole)
  | afterParameters
  | beforeBody (role : FunctionRole)
  | afterVariableDeclaration
  | afterKeyword (keyword : Keyword)
  | afterLoopCondition
  | afterForClauses
  | afterCondition
  | afterValue
  | afterExpression
  | afterReturnValue
  | afterBlock
  | afterArguments
deriving DecidableEq

def Place.text : Place → String
  | beforeClassBody => "before class body"
  | afterClassBody => "after class body"
  | afterName role => "after " ++ role.text ++ " name"
  | afterParameters => "after parameters"
  | beforeBody role => "before " ++ role.text ++ " body"
  | afterVariableDeclaration => "after variable declaration"
  | afterKeyword keyword => "after '" ++ keyword.text ++ "'"
  | afterLoopCondition => "after loop condition"
  | afterForClauses => "after for clauses"
  | afterCondition => "after condition"
  | afterValue => "after value"
  | afterExpression => "after expression"
  | afterReturnValue => "after return value"
  | afterBlock => "after block"
  | afterArguments => "after arguments"

/-- Tokens that do not follow the grammar. -/
inductive SyntaxFault where
  | expectedName (role : NameRole)
  | expectedSymbol (symbol : Symbol) (place : Place)
  | expectedExpression
  | expectedEnd
  | invalidAssignmentTarget
  | tooManyParameters
  | tooManyArguments
deriving DecidableEq

def SyntaxFault.message : SyntaxFault → String
  | expectedName role => "Expected " ++ role.text
  | expectedSymbol symbol place => "Expected '" ++ symbol.text ++ "' " ++ place.text
  | expectedExpression => "Expected expression"
  | expectedEnd => "Expected end of expression"
  | invalidAssignmentTarget => "Invalid assignment target"
  | tooManyParameters => "Can't have more than 255 parameters"
  | tooManyArguments => "Can't have more than 255 arguments"

/-- A tree that breaks a rule of scoping. -/
inductive ScopeFault where
  | alreadyDeclared
  | readInOwnInitializer
  | returnOutsideFunction
  | valueReturnedFromInitializer
  | thisOutsideClass
  | superOutsideClass
  | superWithoutSuperclass
  | inheritsFromItself
deriving DecidableEq

def ScopeFault.message : ScopeFault → String
  | alreadyDeclared => "Already a variable with this name in this scope."
  | readInOwnInitializer => "Can't read local variable in its own initializer."
  | returnOutsideFunction => "Can't return from top-level code."
  | valueReturnedFromInitializer => "Can't return a value from an initializer."
  | thisOutsideClass => "Can't use 'this' outside of a class."
  | superOutsideClass => "Can't use 'super' outside of a class."
  | superWithoutSuperclass => "Can't use 'super' in a class with no superclass."
  | inheritsFromItself => "A class can't inherit from itself."

namespace Diagnostic

inductive Cause where
  | lexical (fault : LexicalFault)
  | grammatical (fault : SyntaxFault)
  | scoping (fault : ScopeFault)
deriving DecidableEq

def Cause.message : Cause → String
  | lexical fault => fault.message
  | grammatical fault => fault.message
  | scoping fault => fault.message

end Diagnostic

/-- A fault at a line of the source. -/
structure Diagnostic where
  cause : Diagnostic.Cause
  line : Nat
deriving DecidableEq

def Diagnostic.display (d : Diagnostic) : String :=
  "[line " ++ toString d.line ++ "] Error: " ++ d.cause.message

end Lox
