import Lox.Syntax.Rule.Expression

/-!
# The grammar

Which lists of tokens are programs, and which tree each of them stands for. The rules are those of
the language's grammar:

    program        → declaration* EOF
    declaration    → "class" IDENT ( "<" IDENT )? "{" function* "}"
                   | "fun" function | "var" variable | statement
    function       → IDENT "(" parameters? ")" block
    variable       → IDENT ( "=" expression )? ";"
    statement      → expression ";" | "print" expression ";" | "return" expression? ";" | block
                   | "if" "(" expression ")" statement ( "else" statement )?
                   | "while" "(" expression ")" statement
                   | "for" "(" ( "var" variable | expression ";" | ";" )
                       expression? ";" expression? ")" statement
    block          → "{" declaration* "}"
    expression     → ( call "." )? IDENT "=" expression | operation or
    operation p    → operation p OPERATOR p tighter p | tighter p
    unary          → ( "!" | "-" ) unary | call
    call           → call "(" arguments? ")" | call "." IDENT | primary
    primary        → NUMBER | STRING | "true" | "false" | "nil" | "this" | IDENT
                   | "(" expression ")" | "super" "." IDENT

Operators associate to the left, since the left operand of a rule may be an operation of the same
precedence and the right one may not. Lists of parameters and arguments have at most 255 members.

## Implementation notes

The numbers of nodes are left open: every choice of numbers gives a tree of the same tokens. A
statement that ends in an `if` without `else` is marked as open, and no `else` may follow an open
branch, so that an `else` belongs to the nearest `if` that can take it.
-/

namespace Lox

/-- The name that a token spells, with the token's line. -/
def Token.name (t : Token) : Identifier := ⟨t.text, t.line⟩

namespace Grammar

/-- The most parameters or arguments that a list may have. -/
def maxListLength : Nat := 255

/-- The precedences of operators between two operands, loosest first. -/
inductive Precedence where
  | or
  | and
  | equality
  | comparison
  | term
  | factor
deriving DecidableEq

/-- The operators of each precedence. -/
inductive Precedence.Has : Precedence → Token.Kind → Connective → Prop where
  | or : Has .or (.keyword .kwOr) (.logical .or)
  | and : Has .and (.keyword .kwAnd) (.logical .and)
  | notEqual : Has .equality (.symbol .bangEqual) (.binary .notEqual)
  | equal : Has .equality (.symbol .equalEqual) (.binary .equal)
  | greater : Has .comparison (.symbol .greater) (.binary .greater)
  | greaterEqual : Has .comparison (.symbol .greaterEqual) (.binary .greaterEqual)
  | less : Has .comparison (.symbol .less) (.binary .less)
  | lessEqual : Has .comparison (.symbol .lessEqual) (.binary .lessEqual)
  | subtract : Has .term (.symbol .minus) (.binary .subtract)
  | add : Has .term (.symbol .plus) (.binary .add)
  | multiply : Has .factor (.symbol .star) (.binary .multiply)
  | divide : Has .factor (.symbol .slash) (.binary .divide)

/-- What an operator may have as its operand. -/
inductive Operand where
  | operation (p : Precedence)
  | unary
deriving DecidableEq

/-- The operands that bind tighter than an operator. -/
def Precedence.tighter : Precedence → Operand
  | or => .operation .and
  | and => .operation .equality
  | equality => .operation .comparison
  | comparison => .operation .term
  | term => .operation .factor
  | factor => .unary

/-- The forms of expressions, and of lists of arguments. -/
inductive Form where
  | expression
  | operand (o : Operand)
  | call
  | primary
  | arguments

/-- What the tokens of each form stand for. -/
abbrev Form.Tree : Form → Type
  | arguments => List Expr
  | _ => Expr

/-- `Phrase s ts e`: the tokens `ts` have the form `s`, and their tree is `e`. -/
inductive Phrase : (s : Form) → List Token → s.Tree → Prop where
  | assignName {name equal : Token} {ts} {value : Expr} (id : NodeId)
      (hn : name.kind = .identifier) (he : equal.kind = .symbol .equal)
      (hv : Phrase .expression ts value) :
      Phrase .expression (name :: equal :: ts) (.assign ⟨id, name.name⟩ value)
  | assignProperty {dot name equal : Token} {ts us} {object value : Expr}
      (ho : Phrase .call ts object) (hd : dot.kind = .symbol .dot)
      (hn : name.kind = .identifier) (he : equal.kind = .symbol .equal)
      (hv : Phrase .expression us value) :
      Phrase .expression (ts ++ dot :: name :: equal :: us) (.set object name.name value)
  | operation {ts} {e : Expr} (h : Phrase (.operand (.operation .or)) ts e) :
      Phrase .expression ts e
  | join {p : Precedence} {op : Token} {connective ts us} {left right : Expr}
      (hl : Phrase (.operand (.operation p)) ts left) (ho : p.Has op.kind connective)
      (hr : Phrase (.operand p.tighter) us right) :
      Phrase (.operand (.operation p)) (ts ++ op :: us) (connective.join op.line left right)
  | tighter {p : Precedence} {ts} {e : Expr} (h : Phrase (.operand p.tighter) ts e) :
      Phrase (.operand (.operation p)) ts e
  | not {op : Token} {ts} {e : Expr} (ho : op.kind = .symbol .bang)
      (h : Phrase (.operand .unary) ts e) :
      Phrase (.operand .unary) (op :: ts) (.unary .not e op.line)
  | negate {op : Token} {ts} {e : Expr} (ho : op.kind = .symbol .minus)
      (h : Phrase (.operand .unary) ts e) :
      Phrase (.operand .unary) (op :: ts) (.unary .negate e op.line)
  | call {ts} {e : Expr} (h : Phrase .call ts e) : Phrase (.operand .unary) ts e
  | invoke {opening closing : Token} {ts us} {callee : Expr} {arguments : List Expr}
      (hc : Phrase .call ts callee) (ho : opening.kind = .symbol .leftParen)
      (ha : Phrase .arguments us arguments) (hm : arguments.length ≤ maxListLength)
      (hr : closing.kind = .symbol .rightParen) :
      Phrase .call (ts ++ opening :: us ++ [closing]) (.call callee arguments closing.line)
  | property {dot name : Token} {ts} {object : Expr} (ho : Phrase .call ts object)
      (hd : dot.kind = .symbol .dot) (hn : name.kind = .identifier) :
      Phrase .call (ts ++ [dot, name]) (.get object name.name)
  | primary {ts} {e : Expr} (h : Phrase .primary ts e) : Phrase .call ts e
  | number {t : Token} {value} (h : t.kind = .number value) :
      Phrase .primary [t] (.literal (.number value))
  | string {t : Token} {contents} (h : t.kind = .string contents) :
      Phrase .primary [t] (.literal (.string contents))
  | true {t : Token} (h : t.kind = .keyword .kwTrue) : Phrase .primary [t] (.literal (.bool true))
  | false {t : Token} (h : t.kind = .keyword .kwFalse) :
      Phrase .primary [t] (.literal (.bool false))
  | nil {t : Token} (h : t.kind = .keyword .kwNil) : Phrase .primary [t] (.literal .nil)
  | this {t : Token} (id : NodeId) (h : t.kind = .keyword .kwThis) :
      Phrase .primary [t] (.this id t.line)
  | name {t : Token} (id : NodeId) (h : t.kind = .identifier) :
      Phrase .primary [t] (.reference ⟨id, t.name⟩)
  | grouping {opening closing : Token} {ts} {inner : Expr}
      (ho : opening.kind = .symbol .leftParen) (h : Phrase .expression ts inner)
      (hc : closing.kind = .symbol .rightParen) :
      Phrase .primary (opening :: ts ++ [closing]) (.grouping inner)
  | super {t dot method : Token} (id : NodeId) (ht : t.kind = .keyword .kwSuper)
      (hd : dot.kind = .symbol .dot) (hm : method.kind = .identifier) :
      Phrase .primary [t, dot, method] (.super id t.line method.name)
  | noArguments : Phrase .arguments [] ([] : List Expr)
  | oneArgument {ts} {e : Expr} (h : Phrase .expression ts e) : Phrase .arguments ts [e]
  | moreArguments {comma : Token} {ts us} {e : Expr} {es : List Expr}
      (h : Phrase .expression ts e) (hc : comma.kind = .symbol .comma)
      (hes : Phrase .arguments us es) (hne : es ≠ []) :
      Phrase .arguments (ts ++ comma :: us) (e :: es)

/-- An expression, or none. -/
inductive OptionalPhrase : List Token → Option Expr → Prop where
  | none : OptionalPhrase [] none
  | some {ts e} (h : Phrase .expression ts e) : OptionalPhrase ts (some e)

/-- Names with commas between them, or none. -/
inductive Parameters : List Token → List Identifier → Prop where
  | none : Parameters [] []
  | one {name : Token} (h : name.kind = .identifier) : Parameters [name] [name.name]
  | more {name comma : Token} {ts names} (h : name.kind = .identifier)
      (hc : comma.kind = .symbol .comma) (hns : Parameters ts names) (hne : names ≠ []) :
      Parameters (name :: comma :: ts) (name.name :: names)

/-- What follows `var`, up to its semicolon. -/
inductive Variable : List Token → Stmt → Prop where
  | plain {name semicolon : Token} (hn : name.kind = .identifier)
      (hs : semicolon.kind = .symbol .semicolon) :
      Variable [name, semicolon] (.var name.name none)
  | withValue {name equal semicolon : Token} {ts value} (hn : name.kind = .identifier)
      (he : equal.kind = .symbol .equal) (hv : Phrase .expression ts value)
      (hs : semicolon.kind = .symbol .semicolon) :
      Variable (name :: equal :: ts ++ [semicolon]) (.var name.name (some value))

/-- The first clause of a `for` loop with its semicolon. -/
inductive ForInitial : List Token → Option Stmt → Prop where
  | none {semicolon : Token} (hs : semicolon.kind = .symbol .semicolon) :
      ForInitial [semicolon] none
  | varDeclaration {var : Token} {ts s} (hv : var.kind = .keyword .kwVar) (h : Variable ts s) :
      ForInitial (var :: ts) (some s)
  | expression {semicolon : Token} {ts e} (h : Phrase .expression ts e)
      (hs : semicolon.kind = .symbol .semicolon) :
      ForInitial (ts ++ [semicolon]) (some (.expression e))

/-- The body of a `for` loop with the increment after it. -/
def forBody (body : Stmt) : Option Expr → Stmt
  | none => body
  | some increment => .block [body, .expression increment]

/-- The condition of a `for` loop, which holds if it is left out. -/
def forCondition : Option Expr → Expr
  | none => .literal (.bool true)
  | some condition => condition

/-- A `for` loop as a block: the first clause, then the loop. -/
def forBlock (loop : Stmt) : Option Stmt → Stmt
  | none => loop
  | some initial => .block [initial, loop]

/-- The clause that makes one class inherit from another. -/
inductive Superclass : List Token → Option Reference → Prop where
  | none : Superclass [] none
  | inherits {less name : Token} (id : NodeId) (hl : less.kind = .symbol .less)
      (hn : name.kind = .identifier) : Superclass [less, name] (some ⟨id, name.name⟩)

/-- The forms of statements, and of the parts that hold statements. A statement is open if it ends
in an `if` without `else`. -/
inductive StatementForm where
  | declaration
  | declarations
  | function
  | functions
  | statement (isOpen : Bool)

/-- What the tokens of each form stand for. -/
abbrev StatementForm.Tree : StatementForm → Type
  | declaration | statement _ => Stmt
  | declarations => List Stmt
  | function => FunctionDef
  | functions => List FunctionDef

/-- `Clause s ts t`: the tokens `ts` have the form `s`, and their tree is `t`. -/
inductive Clause : (s : StatementForm) → List Token → s.Tree → Prop where
  | classDef {keyword name opening closing : Token} {ts us superclass}
      {methods : List FunctionDef} (hk : keyword.kind = .keyword .kwClass)
      (hn : name.kind = .identifier) (hs : Superclass ts superclass)
      (ho : opening.kind = .symbol .leftBrace) (hm : Clause .functions us methods)
      (hc : closing.kind = .symbol .rightBrace) :
      Clause .declaration (keyword :: name :: ts ++ opening :: us ++ [closing])
        (.classDef name.name superclass methods)
  | funDeclaration {keyword : Token} {ts} {f : FunctionDef} (hk : keyword.kind = .keyword .kwFun)
      (h : Clause .function ts f) : Clause .declaration (keyword :: ts) (.function f)
  | varDeclaration {keyword : Token} {ts} {s : Stmt} (hk : keyword.kind = .keyword .kwVar)
      (h : Variable ts s) : Clause .declaration (keyword :: ts) s
  | statement {isOpen ts} {s : Stmt} (h : Clause (.statement isOpen) ts s) :
      Clause .declaration ts s
  | noDeclarations : Clause .declarations [] ([] : List Stmt)
  | moreDeclarations {ts us} {s : Stmt} {rest : List Stmt} (h : Clause .declaration ts s)
      (hr : Clause .declarations us rest) : Clause .declarations (ts ++ us) (s :: rest)
  | function {name openParen closeParen opening closing : Token} {ts us params}
      {body : List Stmt} (hn : name.kind = .identifier)
      (hop : openParen.kind = .symbol .leftParen) (hp : Parameters ts params)
      (hm : params.length ≤ maxListLength) (hcp : closeParen.kind = .symbol .rightParen)
      (ho : opening.kind = .symbol .leftBrace) (hb : Clause .declarations us body)
      (hc : closing.kind = .symbol .rightBrace) :
      Clause .function (name :: openParen :: ts ++ closeParen :: opening :: us ++ [closing])
        ⟨name.name, params, body⟩
  | noFunctions : Clause .functions [] ([] : List FunctionDef)
  | moreFunctions {ts us} {f : FunctionDef} {rest : List FunctionDef} (h : Clause .function ts f)
      (hr : Clause .functions us rest) : Clause .functions (ts ++ us) (f :: rest)
  | expression {semicolon : Token} {ts e} (h : Phrase .expression ts e)
      (hs : semicolon.kind = .symbol .semicolon) :
      Clause (.statement false) (ts ++ [semicolon]) (.expression e)
  | print {keyword semicolon : Token} {ts e} (hk : keyword.kind = .keyword .kwPrint)
      (h : Phrase .expression ts e) (hs : semicolon.kind = .symbol .semicolon) :
      Clause (.statement false) (keyword :: ts ++ [semicolon]) (.print e)
  | ret {keyword semicolon : Token} {ts value} (hk : keyword.kind = .keyword .kwReturn)
      (h : OptionalPhrase ts value) (hs : semicolon.kind = .symbol .semicolon) :
      Clause (.statement false) (keyword :: ts ++ [semicolon]) (.ret keyword.line value)
  | block {opening closing : Token} {ts} {body : List Stmt}
      (ho : opening.kind = .symbol .leftBrace) (h : Clause .declarations ts body)
      (hc : closing.kind = .symbol .rightBrace) :
      Clause (.statement false) (opening :: ts ++ [closing]) (.block body)
  | ifThen {keyword opening closing : Token} {ts us condition isOpen} {thenBranch : Stmt}
      (hk : keyword.kind = .keyword .kwIf) (ho : opening.kind = .symbol .leftParen)
      (h : Phrase .expression ts condition) (hc : closing.kind = .symbol .rightParen)
      (ht : Clause (.statement isOpen) us thenBranch) :
      Clause (.statement true) (keyword :: opening :: ts ++ closing :: us)
        (.conditional condition thenBranch none)
  | ifThenElse {keyword opening closing keywordElse : Token} {ts us vs condition isOpen}
      {thenBranch elseBranch : Stmt} (hk : keyword.kind = .keyword .kwIf)
      (ho : opening.kind = .symbol .leftParen) (h : Phrase .expression ts condition)
      (hc : closing.kind = .symbol .rightParen) (ht : Clause (.statement false) us thenBranch)
      (hke : keywordElse.kind = .keyword .kwElse)
      (he : Clause (.statement isOpen) vs elseBranch) :
      Clause (.statement isOpen)
        (keyword :: opening :: ts ++ closing :: us ++ keywordElse :: vs)
        (.conditional condition thenBranch (some elseBranch))
  | whileLoop {keyword opening closing : Token} {ts us condition isOpen} {body : Stmt}
      (hk : keyword.kind = .keyword .kwWhile) (ho : opening.kind = .symbol .leftParen)
      (h : Phrase .expression ts condition) (hc : closing.kind = .symbol .rightParen)
      (hb : Clause (.statement isOpen) us body) :
      Clause (.statement isOpen) (keyword :: opening :: ts ++ closing :: us)
        (.whileLoop condition body)
  | forLoop {keyword opening semicolon closing : Token}
      {ts us vs ws initial condition increment isOpen} {body : Stmt}
      (hk : keyword.kind = .keyword .kwFor) (ho : opening.kind = .symbol .leftParen)
      (hi : ForInitial ts initial) (h : OptionalPhrase us condition)
      (hs : semicolon.kind = .symbol .semicolon) (hn : OptionalPhrase vs increment)
      (hc : closing.kind = .symbol .rightParen) (hb : Clause (.statement isOpen) ws body) :
      Clause (.statement isOpen)
        (keyword :: opening :: ts ++ us ++ semicolon :: vs ++ closing :: ws)
        (forBlock (.whileLoop (forCondition condition) (forBody body increment)) initial)

/-- `Program ts statements`: the tokens `ts`, before the end of the source, are a program. -/
abbrev Program (ts : List Token) (statements : List Stmt) : Prop :=
  Clause .declarations ts statements

end Grammar

end Lox
