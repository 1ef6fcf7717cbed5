import Lox.Syntax.Rule.Statement
import Lox.Token.Scan

/-!
# Programs

Whole programs and lone expressions. After a fault that ends a declaration, reading starts again at
the next place where a statement is likely to begin, so that one pass reports every fault.
-/

namespace Lox

namespace Cursor

/-- The keywords that begin a declaration or a statement. -/
def beginsStatement : Token.Kind → Bool
  | .keyword k =>
    k ∈ [Keyword.kwClass, .kwFun, .kwVar, .kwFor, .kwIf, .kwWhile, .kwPrint, .kwReturn]
  | _ => false

/-- The tokens from the next statement on, when a token of kind `before` has just been dropped. -/
def fromBoundary (before : Token.Kind) : List Token → List Token
  | [] => []
  | token :: rest =>
    if token.kind = .endOfSource || before = .symbol .semicolon || beginsStatement token.kind then
      token :: rest
    else
      fromBoundary token.kind rest

/-- Drops the token at hand and all others up to the next statement. -/
def synchronized (c : Cursor) : Cursor :=
  if c.isAtEnd then c
  else { c with tokens := fromBoundary c.current.kind c.tokens.tail }

/-- Reads declarations to the end, after those in `before`, newest first. The first argument bounds
how many times a declaration is begun. -/
def declarations (depth : Nat) : Nat → List Stmt → Cursor → List Stmt × Cursor
  | 0, before, c => (before.reverse, c)
  | n + 1, before, c =>
    if c.isAtEnd then (before.reverse, c)
    else match Rule.declaration depth c with
      | .ok statement after => declarations depth n (statement :: before) after
      | .error fault after =>
        declarations depth n before { after with faults := fault :: after.faults }.synchronized
      | .exhausted => (before.reverse, c.noted .expectedExpression c.current.line)

end Cursor

/-- What came of reading: a tree or the faults, and the first node number not taken. -/
structure Reading (α : Type) where
  result : Except (List Diagnostic) α
  nextId : NodeId

namespace Reading

/-- Reads tokens as a program. -/
def ofTokens (tokens : List Token) (firstId : NodeId) : Reading (List Stmt) :=
  let (statements, c) :=
    Cursor.declarations (Cursor.depthFor tokens) tokens.length [] ⟨tokens, firstId, []⟩
  ⟨if c.faults.isEmpty then .ok statements else .error c.faults.reverse, c.nextId⟩

/-- Reads tokens as one expression. The fault that ends the reading goes before one noted earlier,
and one fault is all there is. -/
def expressionOfTokens (tokens : List Token) (firstId : NodeId) : Reading Expr :=
  let c : Cursor := ⟨tokens, firstId, []⟩
  match Rule.expression (Cursor.depthFor tokens) c with
  | .ok e after =>
    let result := if after.isAtEnd then
        match after.faults.getLast? with
        | none => .ok e
        | some fault => .error [fault]
      else .error [⟨.grammatical .expectedEnd, after.current.line⟩]
    ⟨result, after.nextId⟩
  | .error fault after => ⟨.error [fault], after.nextId⟩
  | .exhausted => ⟨.error [⟨.grammatical .expectedExpression, c.current.line⟩], firstId⟩

/-- Faults in the order of their lines; on one line they stay in order. -/
def byLine (faults : List Diagnostic) : List Diagnostic :=
  faults.mergeSort fun a b => a.line ≤ b.line

/-- Reads a source text as a program. Faults of both kinds are reported together, by line, those of
the tokens first on a line. -/
def ofSource (source : String) (firstId : NodeId) : Reading (List Stmt) :=
  let scan := Scan.ofText source
  let reading := ofTokens scan.tokens firstId
  let result := match reading.result with
    | .ok statements => if scan.faults.isEmpty then .ok statements else .error scan.faults
    | .error faults => .error (byLine (scan.faults ++ faults))
  ⟨result, reading.nextId⟩

/-- Reads a source text as one expression. -/
def expressionOfSource (source : String) (firstId : NodeId) : Reading Expr :=
  let scan := Scan.ofText source
  if scan.faults.isEmpty then expressionOfTokens scan.tokens firstId
  else ⟨.error scan.faults, firstId⟩

end Reading

end Lox
