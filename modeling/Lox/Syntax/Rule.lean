import Lox.Procedure
import Lox.Diagnostic
import Lox.Syntax

/-!
# Reading tokens

The state of reading trees from tokens, and the steps that every rule of the grammar is made of. A
fault that leaves the reading in order (a bad assignment target, a list that is too long) is noted
and reading goes on; any other ends the declaration at hand.
-/

namespace Lox

/-- The tokens still to be read, the next node number, and the faults noted, newest first. -/
structure Cursor where
  tokens : List Token
  nextId : NodeId
  faults : List Diagnostic

namespace Cursor

/-- The most parameters or arguments that a list may have. -/
def maxArity : Nat := 255

/-- The next token; past the last one there is only the end. -/
def current (c : Cursor) : Token := c.tokens.headD (.atEnd 1)

def isAtEnd (c : Cursor) : Bool := c.current.kind = .endOfSource

/-- The cursor after the next token. The end is never passed. -/
def advanced (c : Cursor) : Cursor :=
  if c.isAtEnd then c else { c with tokens := c.tokens.tail }

def noted (c : Cursor) (fault : SyntaxFault) (line : Nat) : Cursor :=
  { c with faults := ⟨.grammatical fault, line⟩ :: c.faults }

end Cursor

abbrev Rule := Procedure Cursor Diagnostic

namespace Rule

open Procedure

def peek : Rule Token := read Cursor.current

def atEnd : Rule Bool := read Cursor.isAtEnd

/-- Whether the next token is of this kind. -/
def sees (kind : Token.Kind) : Rule Bool := read fun c => c.current.kind = kind

def advance : Rule Unit := update Cursor.advanced

/-- Consumes the next token if it is of this kind. -/
def accept? (kind : Token.Kind) : Rule (Option Token) := do
  let token ← peek
  if token.kind = kind then
    advance
    return some token
  else
    return none

def accept (kind : Token.Kind) : Rule Bool := do
  return (← accept? kind).isSome

/-- Consumes the next token, or fails at its line. -/
def expect (kind : Token.Kind) (fault : SyntaxFault) : Rule Token := do
  let token ← peek
  if token.kind = kind then
    advance
    return token
  else
    fail ⟨.grammatical fault, token.line⟩

def expectSymbol (symbol : Symbol) (place : Place) : Rule Token :=
  expect (.symbol symbol) (.expectedSymbol symbol place)

def expectName (role : NameRole) : Rule Identifier := do
  let token ← expect .identifier (.expectedName role)
  return ⟨token.text, token.line⟩

def freshId : Rule NodeId := do
  let id ← read Cursor.nextId
  update fun c => { c with nextId := c.nextId + 1 }
  return id

/-- Notes a fault and goes on. -/
def note (fault : SyntaxFault) (line : Nat) : Rule Unit := update fun c => c.noted fault line

/-- Notes a fault at the next token if the list read so far is already full. -/
def noteIfFull (count : Nat) (fault : SyntaxFault) : Rule Unit := do
  if Cursor.maxArity ≤ count then
    note fault (← peek).line

end Rule

end Lox
