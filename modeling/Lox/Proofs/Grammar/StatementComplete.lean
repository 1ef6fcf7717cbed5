import Lox.Proofs.Grammar.ExpressionComplete
import Lox.Proofs.Grammar.StatementSound

/-!
# Clauses of the grammar are read

Every clause is consumed by its rule, with the tree of the clause up to the numbers of nodes. Only
an open statement depends on the token after it, which must not be `else`.

## Implementation notes

Lists of declarations and of methods are kept as the parts that they are made of, since the rules
that read them differ: a block ends at its brace, a program at the end of the source.
-/

namespace Lox

namespace Grammar

open Rule

/-- The kinds of tokens that begin a statement. -/
def beginsStatement (kind : Token.Kind) : Bool :=
  beginsExpression kind || kind = .symbol .leftBrace ||
    kind ∈ [.keyword .kwFor, .keyword .kwIf, .keyword .kwWhile, .keyword .kwReturn,
      .keyword .kwPrint]

/-- The kinds of tokens that begin a declaration. -/
def beginsDeclaration (kind : Token.Kind) : Bool :=
  beginsStatement kind || kind ∈ [.keyword .kwClass, .keyword .kwFun, .keyword .kwVar]

/-- The kinds of tokens that begin a clause of each form. -/
def StatementForm.begins : StatementForm → Token.Kind → Bool
  | .declaration | .declarations => beginsDeclaration
  | .function | .functions => (· = .identifier)
  | .statement _ => beginsStatement

/-- A single declaration, function or statement has a first token. -/
theorem Clause.first {s : StatementForm} {ts : List Token} {t : s.Tree} (h : Clause s ts t)
    (hd : s ≠ .declarations) (hf : s ≠ .functions) :
    ∃ first rest, ts = first :: rest ∧ s.begins first.kind := by
  induction h with
  | classDef hk => exact ⟨_, _, rfl, by rw [hk]; rfl⟩
  | funDeclaration hk => exact ⟨_, _, rfl, by rw [hk]; rfl⟩
  | varDeclaration hk => exact ⟨_, _, rfl, by rw [hk]; rfl⟩
  | statement h ih =>
    obtain ⟨first, rest, rfl, hb⟩ := ih nofun nofun
    refine ⟨first, rest, rfl, ?_⟩
    show beginsDeclaration first.kind
    rw [beginsDeclaration, show beginsStatement first.kind = true from hb, Bool.true_or]
  | noDeclarations => exact absurd rfl hd
  | moreDeclarations => exact absurd rfl hd
  | function hn => exact ⟨_, _, rfl, by rw [hn]; rfl⟩
  | noFunctions => exact absurd rfl hf
  | moreFunctions => exact absurd rfl hf
  | expression h =>
    obtain ⟨first, rest, rfl, hb⟩ := h.first nofun
    refine ⟨first, _, rfl, ?_⟩
    show beginsStatement first.kind
    rw [beginsStatement, show beginsExpression first.kind = true from hb, Bool.true_or,
      Bool.true_or]
  | print hk => exact ⟨_, _, rfl, by rw [hk]; rfl⟩
  | ret hk => exact ⟨_, _, rfl, by rw [hk]; rfl⟩
  | block ho => exact ⟨_, _, rfl, by rw [ho]; rfl⟩
  | ifThen hk => exact ⟨_, _, rfl, by rw [hk]; rfl⟩
  | ifThenElse hk => exact ⟨_, _, rfl, by rw [hk]; rfl⟩
  | whileLoop hk => exact ⟨_, _, rfl, by rw [hk]; rfl⟩
  | forLoop hk => exact ⟨_, _, rfl, by rw [hk]; rfl⟩

/-- The same statement up to the numbers of nodes. -/
abbrev SameStatement (s : Stmt) : Stmt → Prop := fun read => read.Alike .upToNodes s

abbrev SameFunction (f : FunctionDef) : FunctionDef → Prop := fun read => read.Alike .upToNodes f

/-- The same value, or none either. -/
abbrev SameValue (value : Option Expr) : Option Expr → Prop := fun read =>
  Option.Rel (Expr.Alike .upToNodes) read value

theorem identifiers_alike (names : List Identifier) :
    List.Forall₂ (Identifier.Alike .upToNodes) names names :=
  List.forall₂_same.2 fun name _ => identifier_alike name

/-- The declarations that tokens are read as, if no `else` follows. -/
def DeclarationAccepted (ts : List Token) (s : Stmt) : Prop :=
  (∃ first rest, ts = first :: rest ∧ beginsDeclaration first.kind) ∧
    ∀ n rest, 16 * ts.length ≤ n → Cursor.kindOf rest ≠ .keyword .kwElse →
      Accepts (Rule.declaration n) ts rest (SameStatement s)

def FunctionAccepted (ts : List Token) (f : FunctionDef) : Prop :=
  (∃ first rest, ts = first :: rest ∧ first.kind = .identifier) ∧
    ∀ role n rest, 16 * ts.length ≤ n → Accepts (Rule.function n role) ts rest (SameFunction f)

/-- What the rules accept of each form. -/
def StatementForm.Accepted : (s : StatementForm) → List Token → s.Tree → Prop
  | .declaration, ts, s => DeclarationAccepted ts s
  | .declarations, ts, body => ∃ parts : List (List Token), ts = parts.flatten ∧
      List.Forall₂ DeclarationAccepted parts body
  | .function, ts, f => FunctionAccepted ts f
  | .functions, ts, methods => ∃ parts : List (List Token), ts = parts.flatten ∧
      List.Forall₂ FunctionAccepted parts methods
  | .statement isOpen, ts, s => ∀ n rest, 16 * ts.length ≤ n + 1 →
      (isOpen = true → Cursor.kindOf rest ≠ .keyword .kwElse) →
      Accepts (Rule.statement n) ts rest (SameStatement s)

/-- A token that begins a declaration does not end a body. -/
theorem not_ends_of_begins {kind : Token.Kind} (h : beginsDeclaration kind) :
    (kind = .symbol .rightBrace || kind = .endOfSource : Bool) = false := by
  by_contra hk
  have hk : kind = .symbol .rightBrace ∨ kind = .endOfSource := by
    simpa only [Bool.not_eq_false, Bool.or_eq_true, decide_eq_true_eq] using hk
  rcases hk with rfl | rfl <;> exact absurd h (by decide)

/-- No declaration begins with `else`, so one that follows another does not end it early. -/
theorem no_else_before {parts : List (List Token)} {body : List Stmt} {rest : List Token}
    (h : List.Forall₂ DeclarationAccepted parts body)
    (hr : Cursor.kindOf rest ≠ .keyword .kwElse) :
    Cursor.kindOf (parts.flatten ++ rest) ≠ .keyword .kwElse := by
  cases h with
  | nil => exact hr
  | cons hs =>
    obtain ⟨⟨first, us, rfl, hk⟩, -⟩ := hs
    intro helse
    rw [show first.kind = .keyword .kwElse from helse] at hk
    exact absurd hk (by decide)

/-- Loops with like parts are alike. -/
theorem forBlock_alike {r : Likeness} {a b : Option Stmt} {c d e f : Option Expr} {s t : Stmt}
    (hi : Option.Rel (Stmt.Alike r) a b) (hc : Option.Rel (Expr.Alike r) c d)
    (hn : Option.Rel (Expr.Alike r) e f) (hs : s.Alike r t) :
    (forBlock (.whileLoop (forCondition c) (forBody s e)) a).Alike r
      (forBlock (.whileLoop (forCondition d) (forBody t f)) b) := by
  have hbody : (forBody s e).Alike r (forBody t f) := by
    cases hn with
    | none => exact hs
    | some hn => exact .block (.cons hs (.cons (.expression hn) .nil))
  have hloop : (Stmt.whileLoop (forCondition c) (forBody s e)).Alike r
      (.whileLoop (forCondition d) (forBody t f)) := by
    cases hc with
    | none => exact .whileLoop (.literal _) hbody
    | some hc => exact .whileLoop hc hbody
  cases hi with
  | none => exact hloop
  | some hi => exact .block (.cons hi (.cons hloop .nil))

section Parts

variable {n : Nat} {ts us rest : List Token}

theorem accepts_parameters {names : List Identifier} (h : Parameters ts names) (hne : names ≠ [])
    {count : Nat} (hn : ts.length ≤ n) (hm : count + names.length ≤ maxListLength)
    (hr : Cursor.kindOf rest = .symbol .rightParen) :
    Accepts (Rule.parameters n count) ts rest (· = names) := by
  induction h generalizing n count with
  | none => exact absurd rfl hne
  | one hk =>
    obtain ⟨n, rfl⟩ : ∃ k, n = k + 1 := ⟨n - 1, by simp only [List.length_singleton] at hn; omega⟩
    rw [parameters]
    refine Accepts.skip (Accepts.noteIfFull ?_) fun _ _ => ?_
    · simp only [List.length_singleton, maxListLength, Cursor.maxArity] at *
      omega
    refine Accepts.cons (Accepts.expectName hk) fun a ha => ?_
    subst ha
    refine Accepts.skip (Accepts.accept_false ?_) fun b hb => ?_
    · rw [List.nil_append, hr]
      simp
    subst hb
    exact Accepts.pure rfl
  | more hk hc hns hne' ih =>
    simp only [List.length_cons] at hn hm
    obtain ⟨n, rfl⟩ : ∃ k, n = k + 1 := ⟨n - 1, by omega⟩
    rw [parameters]
    refine Accepts.skip (Accepts.noteIfFull ?_) fun _ _ => ?_
    · simp only [maxListLength, Cursor.maxArity] at *
      omega
    refine Accepts.cons (Accepts.expectName hk) fun a ha => ?_
    subst ha
    refine Accepts.cons (Accepts.accept_true hc (by simp)) fun b hb => ?_
    subst hb
    rw [if_pos rfl]
    refine Accepts.last (ih hne' (by omega) (by omega)) fun a ha => ?_
    subst ha
    exact Accepts.pure rfl

theorem accepts_optionalParameters {names : List Identifier} (h : Parameters ts names)
    (hn : ts.length ≤ n) (hm : names.length ≤ maxListLength)
    (hr : Cursor.kindOf rest = .symbol .rightParen) :
    Accepts (optionalParameters n) ts rest (· = names) := by
  have begins : names = [] ∧ ts = [] ∨ names ≠ [] ∧
      ∃ name us, ts = name :: us ∧ name.kind = .identifier := by
    cases h with
    | none => exact .inl ⟨rfl, rfl⟩
    | one hk => exact .inr ⟨by simp, _, _, rfl, hk⟩
    | more hk => exact .inr ⟨by simp, _, _, rfl, hk⟩
  unfold optionalParameters
  rcases begins with ⟨rfl, rfl⟩ | ⟨hne, name, us, rfl, hk⟩
  · refine Accepts.skip (Accepts.sees _) fun b hb => ?_
    rw [show b = true by rw [hb]; exact decide_eq_true hr]
    exact Accepts.pure rfl
  · refine Accepts.skip (Accepts.sees _) fun b hb => ?_
    rw [show b = false by rw [hb]; simp [hk]]
    exact accepts_parameters h hne hn (by omega) hr

/-- An expression that one of these tokens ends is read up to it. -/
theorem accepts_expression {e : Expr} (h : Phrase .expression ts e) (hn : 16 * ts.length ≤ n + 6)
    (hr : closes (Cursor.kindOf rest)) (he : Cursor.kindOf rest ≠ .symbol .equal) :
    Accepts (expression n) ts rest (Same e) :=
  h.accepted n rest hn (stops_of_closing hr) he

theorem accepts_expressionUnless {symbol : Symbol} {value : Option Expr}
    (h : OptionalPhrase ts value) (hn : 16 * ts.length ≤ n + 6)
    (hs : symbol = .semicolon ∨ symbol = .rightParen) (hr : Cursor.kindOf rest = .symbol symbol) :
    Accepts (expressionUnless symbol n) ts rest (SameValue value) := by
  unfold expressionUnless
  cases h with
  | none =>
    refine Accepts.skip (Accepts.sees _) fun b hb => ?_
    rw [show b = true by rw [hb]; exact decide_eq_true hr]
    exact Accepts.pure .none
  | @some _ e h =>
    obtain ⟨first, us, rfl, hb⟩ := h.first nofun
    have hk : first.kind ≠ .symbol symbol := by
      intro hk
      rw [hk] at hb
      rcases hs with rfl | rfl <;> exact absurd hb (by decide)
    have hclose : closes (Cursor.kindOf rest) ∧ Cursor.kindOf rest ≠ .symbol .equal := by
      rw [hr]
      rcases hs with rfl | rfl <;> decide
    refine Accepts.skip (Accepts.sees _) fun b hb => ?_
    rw [show b = false by rw [hb]; exact decide_eq_false hk]
    exact Accepts.last (accepts_expression h hn hclose.1 hclose.2) fun a ha => Accepts.pure (.some ha)

theorem accepts_variableDeclaration {s : Stmt} (h : Variable ts s) (hn : 16 * ts.length ≤ n) :
    Accepts (variableDeclaration n) ts rest (SameStatement s) := by
  rw [variableDeclaration_eq]
  cases h with
  | plain hk hs =>
    refine Accepts.cons (Accepts.expectName hk) fun a ha => ?_
    subst ha
    unfold initialValue
    simp only [bind_assoc]
    refine Accepts.skip (Accepts.accept_false ?_) fun b hb => ?_
    · simp [hs]
    subst hb
    simp only [Bool.false_eq_true, if_false, pure_bind]
    refine Accepts.cons (Accepts.expectSymbol hs) fun _ _ => ?_
    exact Accepts.pure (.var ⟨rfl, rfl⟩ .none)
  | withValue hk he hv hs =>
    simp only [List.length_append, List.length_cons, List.length_nil] at hn
    refine Accepts.cons (Accepts.expectName hk) fun a ha => ?_
    subst ha
    unfold initialValue
    simp only [bind_assoc]
    refine Accepts.cons (Accepts.accept_true he (by simp)) fun b hb => ?_
    subst hb
    simp only [if_true, map_eq_pure_bind, bind_assoc, pure_bind]
    refine Accepts.bind (accepts_expression hv (by omega) (by simp [hs, closes]) (by simp [hs]))
      fun a ha => ?_
    refine Accepts.cons (Accepts.expectSymbol hs) fun _ _ => ?_
    exact Accepts.pure (.var ⟨rfl, rfl⟩ (.some ha))

theorem accepts_expressionStatement {e : Expr} {semicolon : Token} (h : Phrase .expression ts e)
    (hs : semicolon.kind = .symbol .semicolon) (hn : 16 * ts.length ≤ n) :
    Accepts (expressionStatement n) (ts ++ [semicolon]) rest (SameStatement (.expression e)) := by
  unfold expressionStatement
  refine Accepts.bind (accepts_expression h (by omega) (by simp [hs, closes]) (by simp [hs]))
    fun a ha => ?_
  exact Accepts.cons (Accepts.expectSymbol hs) fun _ _ => Accepts.pure (.expression ha)

theorem accepts_condition {keyword : Keyword} {opening closing : Token} {e : Expr}
    (ho : opening.kind = .symbol .leftParen) (h : Phrase .expression ts e)
    (hc : closing.kind = .symbol .rightParen) (hn : 16 * ts.length ≤ n) :
    Accepts (condition keyword n) (opening :: ts ++ [closing]) rest (Same e) := by
  unfold condition
  refine Accepts.cons (Accepts.expectSymbol ho) fun _ _ => ?_
  refine Accepts.bind (accepts_expression h (by omega) (by simp [hc, closes]) (by simp [hc]))
    fun a ha => ?_
  exact Accepts.cons (Accepts.expectSymbol hc) fun _ _ => Accepts.pure ha

theorem accepts_forInitial {initial : Option Stmt} (h : ForInitial ts initial)
    (hn : 16 * ts.length ≤ n) :
    Accepts (forInitial n) ts rest fun read => Option.Rel (Stmt.Alike .upToNodes) read initial := by
  unfold forInitial
  cases h with
  | none hs =>
    refine Accepts.cons (Accepts.accept_true hs (by simp)) fun b hb => ?_
    subst hb
    exact Accepts.pure .none
  | varDeclaration hk h =>
    rw [List.length_cons] at hn
    refine Accepts.skip (Accepts.accept_false (by simp [hk])) fun b hb => ?_
    subst hb
    refine Accepts.cons (Accepts.accept_true hk (by simp)) fun b hb => ?_
    subst hb
    exact Accepts.last (accepts_variableDeclaration h (by omega)) fun a ha => Accepts.pure (.some ha)
  | expression h hs =>
    simp only [List.length_append, List.length_cons, List.length_nil] at hn
    have hfirst := h.first nofun
    obtain ⟨first, us, rfl, hb⟩ := hfirst
    refine Accepts.skip (Accepts.accept_false ?_) fun b hb => ?_
    · intro hk
      rw [show first.kind = .symbol .semicolon from hk] at hb
      exact absurd hb (by decide)
    subst hb
    refine Accepts.skip (Accepts.accept_false ?_) fun b hb => ?_
    · intro hk
      rw [show first.kind = .keyword .kwVar from hk] at hb
      exact absurd hb (by decide)
    subst hb
    exact Accepts.last (accepts_expressionStatement h hs (by omega)) fun a ha =>
      Accepts.pure (.some ha)

theorem accepts_superclassClause {superclass : Option Reference} (h : Superclass ts superclass)
    (hr : Cursor.kindOf rest = .symbol .leftBrace) :
    Accepts superclassClause ts rest fun read =>
      Option.Rel (Reference.Alike .upToNodes) read superclass := by
  unfold superclassClause
  cases h with
  | none =>
    refine Accepts.skip (Accepts.accept_false ?_) fun b hb => ?_
    · rw [List.nil_append, hr]
      simp
    subst hb
    exact Accepts.pure .none
  | inherits id hl hk =>
    refine Accepts.cons (Accepts.accept_true hl (by simp)) fun b hb => ?_
    subst hb
    refine Accepts.cons (Accepts.expectName hk) fun a ha => ?_
    subst ha
    exact Accepts.skip Accepts.freshId fun id _ => Accepts.pure (.some ⟨trivial, rfl, rfl⟩)

theorem accepts_bodyEnds (rest : List Token) :
    Accepts Rule.bodyEnds [] rest (· = (Cursor.kindOf rest = .symbol .rightBrace ||
      Cursor.kindOf rest = .endOfSource : Bool)) :=
  fun i _ => ⟨_, i, rfl, rfl⟩

/-- Methods up to the closing brace, which is not consumed. -/
theorem accepts_methods {parts : List (List Token)} {methods : List FunctionDef}
    (h : List.Forall₂ FunctionAccepted parts methods) (before : List FunctionDef)
    (hn : 16 * (parts.flatten.length + 1) ≤ n)
    (hr : Cursor.kindOf rest = .symbol .rightBrace) :
    Accepts (Rule.methods n before) parts.flatten rest fun read => ∃ later,
      read = before.reverse ++ later ∧ List.Forall₂ (FunctionDef.Alike .upToNodes) later methods := by
  induction h generalizing n before with
  | nil =>
    obtain ⟨n, rfl⟩ : ∃ k, n = k + 1 := ⟨n - 1, by omega⟩
    rw [Rule.methods]
    refine Accepts.skip (accepts_bodyEnds _) fun b hb => ?_
    rw [show b = true by rw [hb, List.flatten_nil, List.nil_append, hr]; rfl]
    exact Accepts.pure ⟨[], (List.append_nil _).symm, .nil⟩
  | @cons part f parts methods hf hmethods ih =>
    obtain ⟨⟨first, us, rfl, hk⟩, hf⟩ := hf
    simp only [List.flatten_cons, List.length_append, List.length_cons] at hn ⊢
    obtain ⟨n, rfl⟩ : ∃ k, n = k + 1 := ⟨n - 1, by omega⟩
    rw [Rule.methods]
    refine Accepts.skip (accepts_bodyEnds _) fun b hb => ?_
    rw [show b = false by rw [hb]; simp [hk]]
    refine Accepts.bind (hf _ n _ (by rw [List.length_cons]; omega)) fun read hread => ?_
    refine (ih (read :: before) (by omega)).mono ?_
    rintro _ ⟨later, rfl, hlater⟩
    exact ⟨read :: later, by simp, .cons hread hlater⟩

/-- The statements of a block with its closing brace. -/
theorem accepts_block {parts : List (List Token)} {body : List Stmt} {closing : Token}
    (h : List.Forall₂ DeclarationAccepted parts body) (hc : closing.kind = .symbol .rightBrace)
    (before : List Stmt) (hn : 16 * (parts.flatten.length + 1) ≤ n) :
    Accepts (Rule.block n before) (parts.flatten ++ [closing]) rest fun read => ∃ later,
      read = before.reverse ++ later ∧ StmtsAlike .upToNodes later body := by
  induction h generalizing n before with
  | nil =>
    obtain ⟨n, rfl⟩ : ∃ k, n = k + 1 := ⟨n - 1, by omega⟩
    rw [Rule.block]
    refine Accepts.skip (accepts_bodyEnds _) fun b hb => ?_
    rw [show b = true by rw [hb]; simp [hc]]
    refine Accepts.cons (Accepts.expectSymbol hc) fun _ _ => ?_
    exact Accepts.pure ⟨[], (List.append_nil _).symm, .nil⟩
  | @cons part s parts body hs hbody ih =>
    obtain ⟨⟨first, us, rfl, hk⟩, hs⟩ := hs
    simp only [List.flatten_cons, List.length_append, List.length_cons] at hn ⊢
    obtain ⟨n, rfl⟩ : ∃ k, n = k + 1 := ⟨n - 1, by omega⟩
    rw [Rule.block, List.append_assoc]
    refine Accepts.skip (accepts_bodyEnds _) fun b hb => ?_
    rw [show b = false by rw [hb]; exact not_ends_of_begins hk]
    refine Accepts.bind (hs n _ (by rw [List.length_cons]; omega) ?_) fun read hread => ?_
    · rw [List.append_assoc]
      refine no_else_before hbody ?_
      simp [hc]
    refine (ih (read :: before) (by omega)).mono ?_
    rintro _ ⟨later, rfl, hlater⟩
    exact ⟨read :: later, by simp, .cons hread hlater⟩

end Parts

namespace StatementForm.Accepted

variable {ts us vs : List Token}

theorem function {name openParen closeParen opening closing : Token} {params : List Identifier}
    {body : List Stmt} (hk : name.kind = .identifier) (hop : openParen.kind = .symbol .leftParen)
    (hp : Parameters ts params) (hm : params.length ≤ maxListLength)
    (hcp : closeParen.kind = .symbol .rightParen) (ho : opening.kind = .symbol .leftBrace)
    (hb : StatementForm.Accepted .declarations us body)
    (hc : closing.kind = .symbol .rightBrace) :
    StatementForm.Accepted .function
      (name :: openParen :: ts ++ closeParen :: opening :: us ++ [closing])
      ⟨name.name, params, body⟩ := by
  refine ⟨⟨name, _, rfl, hk⟩, fun role n rest hn => ?_⟩
  obtain ⟨parts, rfl, hparts⟩ := hb
  simp only [List.length_append, List.length_cons, List.length_nil] at hn
  obtain ⟨n, rfl⟩ : ∃ k, n = k + 1 := ⟨n - 1, by omega⟩
  rw [function_succ, List.append_assoc]
  refine Accepts.cons (Accepts.expectName hk) fun a ha => ?_
  subst ha
  refine Accepts.cons (Accepts.expectSymbol hop) fun _ _ => ?_
  refine Accepts.bind (accepts_optionalParameters hp (by omega) hm (by simp [hcp])) fun a ha => ?_
  subst ha
  refine Accepts.cons (Accepts.expectSymbol hcp) fun _ _ => ?_
  refine Accepts.cons (Accepts.expectSymbol ho) fun _ _ => ?_
  refine Accepts.last (accepts_block hparts hc [] (by omega)) fun read hread => ?_
  obtain ⟨later, rfl, hlater⟩ := hread
  exact Accepts.pure (.intro ⟨rfl, rfl⟩ (identifiers_alike _) hlater)

theorem classDef {keyword name opening closing : Token} {superclass : Option Reference}
    {methods : List FunctionDef} (hk : keyword.kind = .keyword .kwClass)
    (hn : name.kind = .identifier) (hs : Superclass ts superclass)
    (ho : opening.kind = .symbol .leftBrace) (hm : StatementForm.Accepted .functions us methods)
    (hc : closing.kind = .symbol .rightBrace) :
    StatementForm.Accepted .declaration (keyword :: name :: ts ++ opening :: us ++ [closing])
      (.classDef name.name superclass methods) := by
  refine ⟨⟨keyword, _, rfl, by rw [hk]; rfl⟩, fun n rest hlen _ => ?_⟩
  obtain ⟨parts, rfl, hparts⟩ := hm
  simp only [List.length_append, List.length_cons, List.length_nil] at hlen
  obtain ⟨n, rfl⟩ : ∃ k, n = k + 2 := ⟨n - 2, by omega⟩
  rw [Rule.declaration, List.append_assoc]
  refine Accepts.cons (Accepts.accept_true hk (by simp)) fun b hb => ?_
  subst hb
  rw [if_pos rfl, classDeclaration_succ]
  refine Accepts.cons (Accepts.expectName hn) fun a ha => ?_
  subst ha
  refine Accepts.bind (accepts_superclassClause hs (by simp [ho])) fun read hread => ?_
  refine Accepts.cons (Accepts.expectSymbol ho) fun _ _ => ?_
  refine Accepts.bind (accepts_methods hparts [] (by omega) (by simp [hc])) fun found hfound => ?_
  obtain ⟨later, rfl, hlater⟩ := hfound
  refine Accepts.cons (Accepts.expectSymbol hc) fun _ _ => ?_
  exact Accepts.pure (.classDef ⟨rfl, rfl⟩ hread hlater)

theorem funDeclaration {keyword : Token} {f : FunctionDef} (hk : keyword.kind = .keyword .kwFun)
    (h : StatementForm.Accepted .function ts f) :
    StatementForm.Accepted .declaration (keyword :: ts) (.function f) := by
  refine ⟨⟨keyword, _, rfl, by rw [hk]; rfl⟩, fun n rest hn _ => ?_⟩
  obtain ⟨-, h⟩ := h
  rw [List.length_cons] at hn
  obtain ⟨n, rfl⟩ : ∃ k, n = k + 1 := ⟨n - 1, by omega⟩
  rw [Rule.declaration]
  refine Accepts.skip (Accepts.accept_false (by simp [hk])) fun b hb => ?_
  subst hb
  refine Accepts.cons (Accepts.accept_true hk (by simp)) fun b hb => ?_
  subst hb
  exact Accepts.last (h _ n rest (by omega)) fun read hread => Accepts.pure (.function hread)

theorem varDeclaration {keyword : Token} {s : Stmt} (hk : keyword.kind = .keyword .kwVar)
    (h : Variable ts s) : StatementForm.Accepted .declaration (keyword :: ts) s := by
  refine ⟨⟨keyword, _, rfl, by rw [hk]; rfl⟩, fun n rest hn _ => ?_⟩
  rw [List.length_cons] at hn
  obtain ⟨n, rfl⟩ : ∃ k, n = k + 1 := ⟨n - 1, by omega⟩
  rw [Rule.declaration]
  refine Accepts.skip (Accepts.accept_false (by simp [hk])) fun b hb => ?_
  subst hb
  refine Accepts.skip (Accepts.accept_false (by simp [hk])) fun b hb => ?_
  subst hb
  refine Accepts.cons (Accepts.accept_true hk (by simp)) fun b hb => ?_
  subst hb
  exact accepts_variableDeclaration h (by omega)

theorem statement {isOpen : Bool} {s : Stmt} (h : StatementForm.Accepted (.statement isOpen) ts s)
    (hf : ∃ t us, ts = t :: us ∧ beginsStatement t.kind) :
    StatementForm.Accepted .declaration ts s := by
  obtain ⟨first, us, rfl, hk⟩ := hf
  refine ⟨⟨first, us, rfl, by rw [beginsDeclaration, hk]; rfl⟩, fun n rest hn hr => ?_⟩
  have other : ∀ keyword : Keyword, beginsStatement (.keyword keyword) = false →
      Cursor.kindOf ([] ++ (first :: us ++ rest)) ≠ .keyword keyword := by
    intro keyword hkw he
    rw [show first.kind = .keyword keyword from he, hkw] at hk
    cases hk
  rw [List.length_cons] at hn
  obtain ⟨n, rfl⟩ : ∃ k, n = k + 1 := ⟨n - 1, by omega⟩
  rw [Rule.declaration]
  refine Accepts.skip (Accepts.accept_false (other .kwClass (by decide))) fun b hb => ?_
  subst hb
  refine Accepts.skip (Accepts.accept_false (other .kwFun (by decide))) fun b hb => ?_
  subst hb
  refine Accepts.skip (Accepts.accept_false (other .kwVar (by decide))) fun b hb => ?_
  subst hb
  exact h n rest (by rw [List.length_cons]; omega) fun _ => hr

/-- An expression and its semicolon are read as such if no keyword comes first. -/
theorem expression {semicolon : Token} {e : Expr} (h : Phrase .expression ts e)
    (hs : semicolon.kind = .symbol .semicolon) :
    StatementForm.Accepted (.statement false) (ts ++ [semicolon]) (.expression e) := by
  intro n rest hn _
  simp only [List.length_append, List.length_cons, List.length_nil] at hn
  obtain ⟨n, rfl⟩ : ∃ k, n = k + 1 := ⟨n - 1, by omega⟩
  have hread : Accepts (expressionStatement n) (ts ++ [semicolon]) rest
      (SameStatement (.expression e)) := accepts_expressionStatement h hs (by omega)
  obtain ⟨first, us, rfl, hk⟩ := h.first nofun
  rw [Rule.statement]
  apply Accepts.peek
  have hk : beginsExpression first.kind := hk
  split <;> first
    | exact hread
    | next he => rw [he] at hk; exact absurd hk (by decide)

theorem print {keyword semicolon : Token} {e : Expr} (hk : keyword.kind = .keyword .kwPrint)
    (h : Phrase .expression ts e) (hs : semicolon.kind = .symbol .semicolon) :
    StatementForm.Accepted (.statement false) (keyword :: ts ++ [semicolon]) (.print e) := by
  intro n rest hn _
  simp only [List.length_append, List.length_cons, List.length_nil] at hn
  obtain ⟨n, rfl⟩ : ∃ k, n = k + 1 := ⟨n - 1, by omega⟩
  rw [Rule.statement]
  apply Accepts.peek
  rw [hk]
  refine Accepts.cons (Accepts.advance (by simp [hk])) fun _ _ => ?_
  refine Accepts.bind (accepts_expression h (by omega) (by simp [hs, closes]) (by simp [hs]))
    fun a ha => ?_
  exact Accepts.cons (Accepts.expectSymbol hs) fun _ _ => Accepts.pure (.print ha)

theorem ret {keyword semicolon : Token} {value : Option Expr}
    (hk : keyword.kind = .keyword .kwReturn) (h : OptionalPhrase ts value)
    (hs : semicolon.kind = .symbol .semicolon) :
    StatementForm.Accepted (.statement false) (keyword :: ts ++ [semicolon])
      (.ret keyword.line value) := by
  intro n rest hn _
  simp only [List.length_append, List.length_cons, List.length_nil] at hn
  obtain ⟨n, rfl⟩ : ∃ k, n = k + 1 := ⟨n - 1, by omega⟩
  rw [Rule.statement]
  apply Accepts.peek
  rw [hk]
  refine Accepts.cons (Accepts.advance (by simp [hk])) fun _ _ => ?_
  refine Accepts.bind (accepts_expressionUnless h (by omega) (.inl rfl) (by simp [hs]))
    fun a ha => ?_
  exact Accepts.cons (Accepts.expectSymbol hs) fun _ _ => Accepts.pure (.ret rfl ha)

theorem block {opening closing : Token} {body : List Stmt}
    (ho : opening.kind = .symbol .leftBrace) (h : StatementForm.Accepted .declarations ts body)
    (hc : closing.kind = .symbol .rightBrace) :
    StatementForm.Accepted (.statement false) (opening :: ts ++ [closing]) (.block body) := by
  intro n rest hn _
  obtain ⟨parts, rfl, hparts⟩ := h
  simp only [List.length_append, List.length_cons, List.length_nil] at hn
  obtain ⟨n, rfl⟩ : ∃ k, n = k + 1 := ⟨n - 1, by omega⟩
  rw [Rule.statement]
  apply Accepts.peek
  rw [ho]
  refine Accepts.cons (Accepts.advance (by simp [ho])) fun _ _ => ?_
  refine Accepts.last (accepts_block hparts hc [] (by omega)) fun read hread => ?_
  obtain ⟨later, rfl, hlater⟩ := hread
  exact Accepts.pure (.block hlater)

theorem ifThen {keyword opening closing : Token} {condition : Expr} {isOpen : Bool}
    {thenBranch : Stmt} (hk : keyword.kind = .keyword .kwIf)
    (ho : opening.kind = .symbol .leftParen) (h : Phrase .expression ts condition)
    (hc : closing.kind = .symbol .rightParen)
    (ht : StatementForm.Accepted (.statement isOpen) us thenBranch) :
    StatementForm.Accepted (.statement true) (keyword :: opening :: ts ++ closing :: us)
      (.conditional condition thenBranch none) := by
  intro n rest hn hr
  have hsplit : keyword :: opening :: ts ++ closing :: us =
      keyword :: ((opening :: ts ++ [closing]) ++ us) := by simp
  rw [hsplit] at hn ⊢
  simp only [List.length_append, List.length_cons, List.length_nil] at hn
  obtain ⟨n, rfl⟩ : ∃ k, n = k + 1 := ⟨n - 1, by omega⟩
  rw [Rule.statement]
  apply Accepts.peek
  rw [hk]
  refine Accepts.cons (Accepts.advance (by simp [hk])) fun _ _ => ?_
  refine Accepts.bind (accepts_condition ho h hc (by omega)) fun a ha => ?_
  refine Accepts.last (ht n rest (by omega) fun _ => hr rfl) fun b hb => ?_
  refine Accepts.skip (Accepts.accept_false (hr rfl)) fun e he => ?_
  subst he
  exact Accepts.pure (.conditional ha hb .none)

theorem ifThenElse {keyword opening closing keywordElse : Token} {condition : Expr}
    {isOpen : Bool} {thenBranch elseBranch : Stmt} (hk : keyword.kind = .keyword .kwIf)
    (ho : opening.kind = .symbol .leftParen) (h : Phrase .expression ts condition)
    (hc : closing.kind = .symbol .rightParen)
    (ht : StatementForm.Accepted (.statement false) us thenBranch)
    (hke : keywordElse.kind = .keyword .kwElse)
    (he : StatementForm.Accepted (.statement isOpen) vs elseBranch) :
    StatementForm.Accepted (.statement isOpen)
      (keyword :: opening :: ts ++ closing :: us ++ keywordElse :: vs)
      (.conditional condition thenBranch (some elseBranch)) := by
  intro n rest hn hr
  have hsplit : keyword :: opening :: ts ++ closing :: us ++ keywordElse :: vs =
      keyword :: ((opening :: ts ++ [closing]) ++ (us ++ keywordElse :: vs)) := by simp
  rw [hsplit] at hn ⊢
  simp only [List.length_append, List.length_cons, List.length_nil] at hn
  obtain ⟨n, rfl⟩ : ∃ k, n = k + 1 := ⟨n - 1, by omega⟩
  rw [Rule.statement]
  apply Accepts.peek
  rw [hk]
  refine Accepts.cons (Accepts.advance (by simp [hk])) fun _ _ => ?_
  refine Accepts.bind (accepts_condition ho h hc (by omega)) fun a ha => ?_
  refine Accepts.bind (ht n _ (by omega) (by rintro ⟨⟩)) fun b hb => ?_
  refine Accepts.cons (Accepts.accept_true hke (by simp)) fun e he => ?_
  subst he
  exact Accepts.last (he n rest (by omega) hr) fun d hd => Accepts.pure (.conditional ha hb (.some hd))

theorem whileLoop {keyword opening closing : Token} {condition : Expr} {isOpen : Bool}
    {body : Stmt} (hk : keyword.kind = .keyword .kwWhile)
    (ho : opening.kind = .symbol .leftParen) (h : Phrase .expression ts condition)
    (hc : closing.kind = .symbol .rightParen)
    (hb : StatementForm.Accepted (.statement isOpen) us body) :
    StatementForm.Accepted (.statement isOpen) (keyword :: opening :: ts ++ closing :: us)
      (.whileLoop condition body) := by
  intro n rest hn hr
  have hsplit : keyword :: opening :: ts ++ closing :: us =
      keyword :: ((opening :: ts ++ [closing]) ++ us) := by simp
  rw [hsplit] at hn ⊢
  simp only [List.length_append, List.length_cons, List.length_nil] at hn
  obtain ⟨n, rfl⟩ : ∃ k, n = k + 1 := ⟨n - 1, by omega⟩
  rw [Rule.statement]
  apply Accepts.peek
  rw [hk]
  refine Accepts.cons (Accepts.advance (by simp [hk])) fun _ _ => ?_
  refine Accepts.bind (accepts_condition ho h hc (by omega)) fun a ha => ?_
  exact Accepts.last (hb n rest (by omega) hr) fun b hb => Accepts.pure (.whileLoop ha hb)

theorem forLoop {keyword opening semicolon closing : Token} {ws : List Token}
    {initial : Option Stmt} {condition increment : Option Expr} {isOpen : Bool} {body : Stmt}
    (hk : keyword.kind = .keyword .kwFor) (ho : opening.kind = .symbol .leftParen)
    (hi : ForInitial ts initial) (h : OptionalPhrase us condition)
    (hs : semicolon.kind = .symbol .semicolon) (hn : OptionalPhrase vs increment)
    (hc : closing.kind = .symbol .rightParen)
    (hb : StatementForm.Accepted (.statement isOpen) ws body) :
    StatementForm.Accepted (.statement isOpen)
      (keyword :: opening :: ts ++ us ++ semicolon :: vs ++ closing :: ws)
      (forBlock (.whileLoop (forCondition condition) (forBody body increment)) initial) := by
  intro n rest hlen hr
  have hsplit : keyword :: opening :: ts ++ us ++ semicolon :: vs ++ closing :: ws =
      keyword :: opening :: (ts ++ (us ++ semicolon :: (vs ++ closing :: ws))) := by simp
  rw [hsplit] at hlen ⊢
  simp only [List.length_append, List.length_cons] at hlen
  obtain ⟨n, rfl⟩ : ∃ k, n = k + 1 := ⟨n - 1, by omega⟩
  rw [Rule.statement]
  apply Accepts.peek
  rw [hk]
  refine Accepts.cons (Accepts.advance (by simp [hk])) fun _ _ => ?_
  refine Accepts.cons (Accepts.expectSymbol ho) fun _ _ => ?_
  refine Accepts.bind (accepts_forInitial hi (by omega)) fun a ha => ?_
  refine Accepts.bind (accepts_expressionUnless h (by omega) (.inl rfl) (by simp [hs]))
    fun b hb' => ?_
  refine Accepts.cons (Accepts.expectSymbol hs) fun _ _ => ?_
  refine Accepts.bind (accepts_expressionUnless hn (by omega) (.inr rfl) (by simp [hc]))
    fun d hd => ?_
  refine Accepts.cons (Accepts.expectSymbol hc) fun _ _ => ?_
  refine Accepts.last (hb n rest (by omega) hr) fun e he => Accepts.pure ?_
  rw [Stmt.forLoop_eq_forBlock]
  exact forBlock_alike ha hb' hd he

end StatementForm.Accepted

/-- Every clause is read by the rule of its form. -/
theorem Clause.accepted {s : StatementForm} {ts : List Token} {t : s.Tree} (h : Clause s ts t) :
    s.Accepted ts t := by
  induction h with
  | classDef hk hn hs ho hm hc ih => exact .classDef hk hn hs ho ih hc
  | funDeclaration hk h ih => exact .funDeclaration hk ih
  | varDeclaration hk h => exact .varDeclaration hk h
  | statement h ih => exact ih.statement (h.first (by rintro ⟨⟩) (by rintro ⟨⟩))
  | noDeclarations => exact ⟨[], rfl, .nil⟩
  | moreDeclarations h hr ih ihr =>
    obtain ⟨parts, rfl, hparts⟩ := ihr
    exact ⟨_ :: parts, rfl, .cons ih hparts⟩
  | function hn hop hp hm hcp ho hb hc ih => exact .function hn hop hp hm hcp ho ih hc
  | noFunctions => exact ⟨[], rfl, .nil⟩
  | moreFunctions h hr ih ihr =>
    obtain ⟨parts, rfl, hparts⟩ := ihr
    exact ⟨_ :: parts, rfl, .cons ih hparts⟩
  | expression h hs => exact .expression h hs
  | print hk h hs => exact .print hk h hs
  | ret hk h hs => exact .ret hk h hs
  | block ho h hc ih => exact .block ho ih hc
  | ifThen hk ho h hc ht ih => exact .ifThen hk ho h hc ih
  | ifThenElse hk ho h hc ht hke he iht ihe => exact .ifThenElse hk ho h hc iht hke ihe
  | whileLoop hk ho h hc hb ih => exact .whileLoop hk ho h hc ih
  | forLoop hk ho hi h hs hn hc hb ih => exact .forLoop hk ho hi h hs hn hc ih

end Grammar

end Lox
