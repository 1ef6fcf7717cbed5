import Lox.Proofs.Grammar.ExpressionSound
import Lox.Syntax.Rule.Statement

/-!
# Statements are read by the grammar

What the rules for declarations and statements read without noting a fault is a clause of the
grammar. A statement that is read as open is not followed by `else`, for the rule that read the
`if` would have taken it.
-/

namespace Lox

open Grammar

namespace Rule

/-- The clause that names a superclass, if it is there. -/
def superclassClause : Rule (Option Reference) := do
  if ← accept (.symbol .less) then
    let name ← expectName .ofSuperclass
    return some ⟨← freshId, name⟩
  else return none

/-- Parameters up to the closing parenthesis, which is not consumed. -/
def optionalParameters (n : Nat) : Rule (List Identifier) := do
  if ← sees (.symbol .rightParen) then return [] else parameters n 0

/-- The initial value of a variable, if it is there. -/
def initialValue (n : Nat) : Rule (Option Expr) := do
  if ← accept (.symbol .equal) then some <$> expression n else return none

theorem classDeclaration_succ (n : Nat) :
    classDeclaration (n + 1) = (do
      let name ← expectName .ofClass
      let superclass ← superclassClause
      let _ ← expectSymbol .leftBrace .beforeClassBody
      let methods ← methods n []
      let _ ← expectSymbol .rightBrace .afterClassBody
      return .classDef name superclass methods) := by
  rw [classDeclaration]
  refine congrArg (expectName _ >>= ·) (funext fun name => ?_)
  simp only [superclassClause, bind_assoc]
  refine congrArg (accept _ >>= ·) (funext fun b => ?_)
  cases b with
  | true => simp only [if_true, bind_assoc, pure_bind]
  | false => rfl

theorem function_succ (n : Nat) (role : FunctionRole) :
    function (n + 1) role = (do
      let name ← expectName (.ofFunction role)
      let _ ← expectSymbol .leftParen (.afterName role)
      let params ← optionalParameters n
      let _ ← expectSymbol .rightParen .afterParameters
      let _ ← expectSymbol .leftBrace (.beforeBody role)
      return ⟨name, params, ← block n []⟩) := by
  rw [function]
  refine congrArg (expectName _ >>= ·) (funext fun name => ?_)
  refine congrArg (expectSymbol _ _ >>= ·) (funext fun _ => ?_)
  simp only [optionalParameters, bind_assoc]
  exact congrArg (sees _ >>= ·) (funext fun b => by cases b <;> rfl)

theorem variableDeclaration_eq (n : Nat) :
    variableDeclaration n = (do
      let name ← expectName .ofVariable
      let initial ← initialValue n
      let _ ← expectSymbol .semicolon .afterVariableDeclaration
      return .var name initial) := by
  unfold variableDeclaration
  refine congrArg (expectName _ >>= ·) (funext fun name => ?_)
  simp only [initialValue, bind_assoc]
  exact congrArg (accept _ >>= ·) (funext fun b => by cases b <;> rfl)

end Rule

theorem Stmt.forLoop_eq_forBlock (initial : Option Stmt) (condition increment : Option Expr)
    (body : Stmt) :
    forLoop initial condition increment body =
      forBlock (.whileLoop (forCondition condition) (forBody body increment)) initial := by
  cases initial <;> cases condition <;> cases increment <;> rfl

namespace Grammar

open Rule Reads

/-- The tokens are a clause, and its nodes have the numbers that were taken meanwhile. -/
def IsClause (s : StatementForm) (nodes : s.Tree → List NodeId) : Rule.Property s.Tree :=
  fun ts i j _ t => Clause s ts t ∧ Numbered i j (nodes t)

/-- The tokens are a statement that the next token does not go on with. -/
def IsStatement : Rule.Property Stmt := fun ts i j next s =>
  ∃ isOpen, Clause (.statement isOpen) ts s ∧ Numbered i j s.nodes ∧
    (isOpen = true → next.kind ≠ .keyword .kwElse)

section Parts

variable {n : Nat} {c : Cursor}

theorem reads_parameters (n : Nat) (count : Nat) (c : Cursor) :
    Reads (fun ts i j _ names => Parameters ts names ∧ names ≠ [] ∧ i = j ∧
      count + names.length ≤ maxListLength) c (parameters n count) := by
  induction n generalizing count c with
  | zero => exact trivial
  | succ n ih =>
    rw [parameters]
    refine bind (noteIfFull count _ c) fun _ d => bind (expectName _ d) fun name d => ?_
    refine bind (accept (by simp) d) fun another d => ?_
    cases another with
    | true =>
      refine bind (ih (count + 1) d) fun names d => Reads.pure _ ?_
      rintro us i ⟨hp, hne, rfl, hm⟩ _ j ⟨rfl, comma, rfl, hc⟩ _ k ⟨name, rfl, hk, rfl, rfl⟩ _ l
        ⟨rfl, rfl, hl⟩
      refine ⟨?_, by simp, rfl, by simp only [List.length_cons]; omega⟩
      simpa [Token.name] using Parameters.more hk hc hp hne
    | false =>
      refine Reads.pure _ ?_
      rintro _ i ⟨rfl, rfl, -⟩ _ k ⟨name, rfl, hk, rfl, rfl⟩ _ l ⟨rfl, rfl, hl⟩
      refine ⟨by simpa [Token.name] using Parameters.one hk, by simp, rfl, ?_⟩
      simp only [Cursor.maxArity, maxListLength, List.length_singleton] at *
      omega

theorem reads_optionalParameters :
    Reads (fun ts i j _ names => Parameters ts names ∧ i = j ∧ names.length ≤ maxListLength) c
      (optionalParameters n) := by
  refine test fun b => ?_
  cases b with
  | true => exact Reads.pure _ ⟨.none, rfl, by simp [maxListLength]⟩
  | false =>
    refine (reads_parameters n 0 c).mono ?_
    rintro ts i j next names ⟨hp, -, hi, hm⟩
    exact ⟨hp, hi, by omega⟩

theorem reads_expressionUnless (symbol : Symbol) :
    Reads (fun ts i j _ value => OptionalPhrase ts value ∧ Numbered i j (Expr.nodes? value)) c
      (expressionUnless symbol n) := by
  refine test fun b => ?_
  cases b with
  | true => exact Reads.pure _ ⟨.none, .nil (Nat.le_refl _)⟩
  | false =>
    refine bind ((readsExpressions n).expression c) fun e d => Reads.pure _ ?_
    rintro ts i ⟨hp, hn⟩
    exact ⟨.some (by simpa using hp), hn⟩

theorem reads_initialValue :
    Reads (fun ts i j _ value => Numbered i j (Expr.nodes? value) ∧
      ((value = none ∧ ts = []) ∨ ∃ (equal : Token) (us : List Token) (e : Expr), value = some e ∧
        ts = equal :: us ∧ equal.kind = .symbol .equal ∧ Phrase .expression us e)) c
      (initialValue n) := by
  refine bind (accept (by simp) c) fun given d => ?_
  cases given with
  | true =>
    refine bind ((readsExpressions n).expression d) fun e d => Reads.pure _ ?_
    rintro us i ⟨hp, hn⟩ _ j ⟨rfl, equal, rfl, he⟩
    exact ⟨hn, .inr ⟨equal, us, e, rfl, by simp, he, hp⟩⟩
  | false =>
    refine Reads.pure _ ?_
    rintro _ i ⟨rfl, rfl, -⟩
    exact ⟨.nil (Nat.le_refl _), .inl ⟨rfl, rfl⟩⟩

theorem reads_variableDeclaration :
    Reads (fun ts i j _ s => Variable ts s ∧ Numbered i j s.nodes) c (variableDeclaration n) := by
  rw [variableDeclaration_eq]
  refine bind (expectName _ c) fun name d => bind reads_initialValue fun initial d => ?_
  refine bind (expectSymbol _ _ d) fun semicolon d => Reads.pure _ ?_
  rintro _ i ⟨rfl, hs, rfl⟩ _ j ⟨hn, ⟨rfl, rfl⟩ | ⟨equal, us, e, rfl, rfl, he, hp⟩⟩ _ k
    ⟨name, rfl, hk, rfl, rfl⟩
  · exact ⟨by simpa [Token.name] using Variable.plain hk hs, hn⟩
  · exact ⟨by simpa [Token.name] using Variable.withValue hk he hp hs, hn⟩

theorem reads_expressionStatement :
    Reads IsStatement c (expressionStatement n) := by
  unfold expressionStatement
  refine bind ((readsExpressions n).expression c) fun e d => ?_
  refine bind (expectSymbol _ _ d) fun semicolon d => Reads.pure _ ?_
  rintro _ i ⟨rfl, hs, rfl⟩ ts j ⟨hp, hn⟩
  exact ⟨false, by simpa using Clause.expression hp hs, hn, by simp⟩

theorem reads_printStatement :
    Reads (fun ts i j next s => ∀ keyword : Token, keyword.kind = .keyword .kwPrint →
      IsStatement (keyword :: ts) i j next s) c (printStatement n) := by
  unfold printStatement
  refine bind ((readsExpressions n).expression c) fun e d => ?_
  refine bind (expectSymbol _ _ d) fun semicolon d => Reads.pure _ ?_
  rintro _ i ⟨rfl, hs, rfl⟩ ts j ⟨hp, hn⟩ keyword hk
  exact ⟨false, by simpa using Clause.print hk hp hs, hn, by simp⟩

theorem reads_returnStatement (keyword : Token) (hk : keyword.kind = .keyword .kwReturn) :
    Reads (fun ts i j next s => IsStatement (keyword :: ts) i j next s) c
      (returnStatement n keyword.line) := by
  unfold returnStatement
  refine bind (reads_expressionUnless _) fun value d => ?_
  refine bind (expectSymbol _ _ d) fun semicolon d => Reads.pure _ ?_
  rintro _ i ⟨rfl, hs, rfl⟩ ts j ⟨hp, hn⟩
  exact ⟨false, by simpa using Clause.ret hk hp hs, hn, by simp⟩

theorem reads_condition (keyword : Keyword) :
    Reads (fun ts i j _ e => ∃ (opening closing : Token) (us : List Token),
      ts = opening :: us ++ [closing] ∧ opening.kind = .symbol .leftParen ∧
      closing.kind = .symbol .rightParen ∧ Phrase .expression us e ∧ Numbered i j e.nodes) c
      (condition keyword n) := by
  unfold condition
  refine bind (expectSymbol _ _ c) fun opening d => ?_
  refine bind ((readsExpressions n).expression d) fun e d => ?_
  refine bind (expectSymbol _ _ d) fun closing d => Reads.pure _ ?_
  rintro _ i ⟨rfl, hc, rfl⟩ us j ⟨hp, hn⟩ _ k ⟨rfl, ho, rfl⟩
  exact ⟨opening, closing, us, by simp, ho, hc, hp, hn⟩

/-- The numbers in a clause that may be missing. -/
def initialNodes : Option Stmt → List NodeId
  | some s => s.nodes
  | none => []

theorem reads_forInitial :
    Reads (fun ts i j _ initial => ForInitial ts initial ∧ Numbered i j (initialNodes initial)) c
      (forInitial n) := by
  unfold forInitial
  refine bind (accept (by simp) c) fun left d => ?_
  cases left with
  | true =>
    refine Reads.pure _ ?_
    rintro _ i ⟨rfl, semicolon, rfl, hs⟩
    exact ⟨by simpa using ForInitial.none hs, .nil (Nat.le_refl _)⟩
  | false =>
    refine bind (accept (by simp) d) fun declared d => ?_
    cases declared with
    | true =>
      refine bind reads_variableDeclaration fun s d => Reads.pure _ ?_
      rintro us i ⟨hv, hn⟩ _ j ⟨rfl, keyword, rfl, hk⟩ _ k ⟨rfl, rfl, -⟩
      exact ⟨by simpa using ForInitial.varDeclaration hk hv, hn⟩
    | false =>
      unfold expressionStatement
      simp only [bind_assoc, pure_bind]
      refine bind ((readsExpressions n).expression d) fun e d => ?_
      refine bind (expectSymbol _ _ d) fun semicolon d => Reads.pure _ ?_
      rintro _ i ⟨rfl, hs, rfl⟩ ts j ⟨hp, hn⟩ _ k ⟨rfl, rfl, -⟩ _ l ⟨rfl, rfl, -⟩
      exact ⟨by simpa using ForInitial.expression hp hs, hn⟩

theorem reads_superclassClause :
    Reads (fun ts i j _ superclass => Superclass ts superclass ∧
      Numbered i j (Reference.nodes? superclass)) c superclassClause := by
  unfold superclassClause
  refine bind (accept (by simp) c) fun inherits d => ?_
  cases inherits with
  | true =>
    refine bind (expectName _ d) fun name d => bind (freshId d) fun id d => Reads.pure _ ?_
    rintro _ i ⟨rfl, rfl, hi⟩ _ j ⟨name, rfl, hk, rfl, rfl⟩ _ k ⟨rfl, less, rfl, hl⟩
    exact ⟨by simpa [Token.name] using Superclass.inherits _ hl hk, hi ▸ .next _⟩
  | false =>
    refine Reads.pure _ ?_
    rintro _ i ⟨rfl, rfl, -⟩
    exact ⟨.none, .nil (Nat.le_refl _)⟩

end Parts

/-- What the rules of depth `n` read. The lists of methods and of statements are read after those in
`before`, newest first. -/
structure ReadsStatements (n : Nat) : Prop where
  declaration : ∀ c, Reads (IsClause .declaration Stmt.nodes) c (Rule.declaration n)
  classDeclaration : ∀ c, Reads (fun ts i j next s => ∀ keyword : Token,
    keyword.kind = .keyword .kwClass →
    IsClause .declaration Stmt.nodes (keyword :: ts) i j next s) c (Rule.classDeclaration n)
  methods : ∀ before c, Reads (fun ts i j next fs => ∃ read, fs = before.reverse ++ read ∧
    IsClause .functions Stmt.methodNodes ts i j next read) c (Rule.methods n before)
  function : ∀ role c, Reads (IsClause .function Stmt.functionNodes) c (Rule.function n role)
  block : ∀ before c, Reads (fun ts i j next body => ∃ read, ∃ us, ∃ closing : Token,
    body = before.reverse ++ read ∧ ts = us ++ [closing] ∧ closing.kind = .symbol .rightBrace ∧
    IsClause .declarations Stmt.nodesAll us i j next read) c (Rule.block n before)
  statement : ∀ c, Reads IsStatement c (Rule.statement n)

namespace ReadsStatements

variable {n : Nat}

theorem succ_declaration (ih : ReadsStatements n) (c : Cursor) :
    Reads (IsClause .declaration Stmt.nodes) c (Rule.declaration (n + 1)) := by
  rw [Rule.declaration]
  refine bind (accept (by simp) c) fun isClass d => ?_
  cases isClass with
  | true =>
    refine (ih.classDeclaration d).mono ?_
    rintro ts i j next s h _ k ⟨rfl, keyword, rfl, hk⟩
    exact h keyword hk
  | false =>
    refine bind (accept (by simp) d) fun isFunction d => ?_
    cases isFunction with
    | true =>
      refine bind (ih.function _ d) fun f d => Reads.pure _ ?_
      rintro us i ⟨hf, hn⟩ _ j ⟨rfl, keyword, rfl, hk⟩ _ k ⟨rfl, rfl, -⟩
      exact ⟨by simpa using Clause.funDeclaration hk hf, hn⟩
    | false =>
      refine bind (accept (by simp) d) fun isVariable d => ?_
      cases isVariable with
      | true =>
        refine reads_variableDeclaration.mono ?_
        rintro us i j next s ⟨hv, hn⟩ _ k ⟨rfl, keyword, rfl, hk⟩ _ l ⟨rfl, rfl, -⟩ _ m
          ⟨rfl, rfl, -⟩
        exact ⟨by simpa using Clause.varDeclaration hk hv, hn⟩
      | false =>
        refine (ih.statement d).mono ?_
        rintro us i j next s ⟨isOpen, hs, hn, -⟩ _ k ⟨rfl, rfl, -⟩ _ l ⟨rfl, rfl, -⟩ _ m
          ⟨rfl, rfl, -⟩
        exact ⟨by simpa using Clause.statement hs, hn⟩

theorem succ_classDeclaration (ih : ReadsStatements n) (c : Cursor) :
    Reads (fun ts i j next s => ∀ keyword : Token, keyword.kind = .keyword .kwClass →
      IsClause .declaration Stmt.nodes (keyword :: ts) i j next s) c
      (Rule.classDeclaration (n + 1)) := by
  rw [classDeclaration_succ]
  refine bind (expectName _ c) fun name d => bind reads_superclassClause fun superclass d => ?_
  refine bind (expectSymbol _ _ d) fun opening d => bind (ih.methods [] d) fun methods d => ?_
  refine bind (expectSymbol _ _ d) fun closing d => Reads.pure _ ?_
  rintro _ i ⟨rfl, hc, rfl⟩ us j ⟨_, rfl, hm, hnm⟩ _ k ⟨rfl, ho, rfl⟩ ts l ⟨hs, hns⟩ _ m
    ⟨name, rfl, hk, rfl, rfl⟩ keyword hkw
  refine ⟨?_, hns.append hnm⟩
  simpa [Token.name] using Clause.classDef hkw hk hs ho hm hc

theorem bodyEnds {R : Property α} {f : Bool → Rule α} {c : Cursor} (h : ∀ b, Reads R c (f b)) :
    Reads R c (Rule.bodyEnds >>= f) := h _

theorem succ_methods (ih : ReadsStatements n) (before : List FunctionDef) (c : Cursor) :
    Reads (fun ts i j next fs => ∃ read, fs = before.reverse ++ read ∧
      IsClause .functions Stmt.methodNodes ts i j next read) c
      (Rule.methods (n + 1) before) := by
  rw [Rule.methods]
  refine bodyEnds fun ends => ?_
  cases ends with
  | true =>
    exact Reads.pure _ ⟨[], (List.append_nil _).symm, .noFunctions, .nil (Nat.le_refl _)⟩
  | false =>
    refine bind (ih.function _ c) fun f d => (ih.methods _ d).mono ?_
    rintro us i j next fs ⟨read, rfl, hr, hnr⟩ ts k ⟨hf, hn⟩
    exact ⟨f :: read, by simp, .moreFunctions hf hr, hn.append hnr⟩

theorem succ_function (ih : ReadsStatements n) (role : FunctionRole) (c : Cursor) :
    Reads (IsClause .function Stmt.functionNodes) c (Rule.function (n + 1) role) := by
  rw [function_succ]
  refine bind (expectName _ c) fun name d => bind (expectSymbol _ _ d) fun openParen d => ?_
  refine bind reads_optionalParameters fun params d => ?_
  refine bind (expectSymbol _ _ d) fun closeParen d => ?_
  refine bind (expectSymbol _ _ d) fun opening d => bind (ih.block [] d) fun body d => ?_
  refine Reads.pure _ ?_
  rintro _ i ⟨_, us, closing, rfl, rfl, hc, hb, hn⟩ _ j ⟨rfl, ho, rfl⟩ _ k ⟨rfl, hcp, rfl⟩ ts l
    ⟨hp, rfl, hm⟩ _ m ⟨rfl, hop, rfl⟩ _ m' ⟨name, rfl, hk, rfl, rfl⟩
  refine ⟨?_, hn⟩
  simpa [Token.name] using Clause.function hk hop hp hm hcp ho hb hc

theorem succ_block (ih : ReadsStatements n) (before : List Stmt) (c : Cursor) :
    Reads (fun ts i j next body => ∃ read, ∃ us, ∃ closing : Token,
      body = before.reverse ++ read ∧ ts = us ++ [closing] ∧
      closing.kind = .symbol .rightBrace ∧
      IsClause .declarations Stmt.nodesAll us i j next read) c (Rule.block (n + 1) before) := by
  rw [Rule.block]
  refine bodyEnds fun ends => ?_
  cases ends with
  | true =>
    refine bind (expectSymbol _ _ c) fun closing d => Reads.pure _ ?_
    rintro _ i ⟨rfl, hc, rfl⟩
    exact ⟨[], [], closing, (List.append_nil _).symm, rfl, hc, .noDeclarations,
      .nil (Nat.le_refl _)⟩
  | false =>
    refine bind (ih.declaration c) fun s d => (ih.block _ d).mono ?_
    rintro _ i j next body ⟨read, us, closing, rfl, rfl, hc, hb, hnb⟩ ts k ⟨hs, hn⟩
    exact ⟨s :: read, ts ++ us, closing, by simp, by simp, hc, .moreDeclarations hs hb,
      hn.append hnb⟩

theorem nodes_forBlock (initial : Option Stmt) (condition increment : Option Expr) (body : Stmt) :
    (forBlock (.whileLoop (forCondition condition) (forBody body increment)) initial).nodes =
      initialNodes initial ++ Expr.nodes? condition ++ body.nodes ++ Expr.nodes? increment := by
  cases initial <;> cases condition <;> cases increment <;>
    simp [forBlock, forCondition, forBody, initialNodes, Expr.nodes?, Stmt.nodes, Stmt.nodesAll,
      Expr.nodes]

theorem succ_statement (ih : ReadsStatements n) (c : Cursor) :
    Reads IsStatement c (Rule.statement (n + 1)) := by
  rw [Rule.statement]
  apply Reads.peek
  split
  · next hk =>
    refine bind (advance (by simp [hk])) fun _ d => bind (expectSymbol _ _ d) fun opening d => ?_
    refine bind reads_forInitial fun initial d => ?_
    refine bind (reads_expressionUnless _) fun condition d => ?_
    refine bind (expectSymbol _ _ d) fun semicolon d => ?_
    refine bind (reads_expressionUnless _) fun increment d => ?_
    refine bind (expectSymbol _ _ d) fun closing d => bind (ih.statement d) fun body d => ?_
    refine Reads.pure _ ?_
    rintro ws i ⟨isOpen, hb, hnb, helse⟩ _ j ⟨rfl, hc, rfl⟩ vs k ⟨hin, hnin⟩ _ l ⟨rfl, hs, rfl⟩
      us m ⟨hco, hnco⟩ ts i' ⟨hi, hni⟩ _ j' ⟨rfl, ho, rfl⟩ _ k' ⟨rfl, rfl⟩
    rw [Stmt.forLoop_eq_forBlock]
    refine ⟨isOpen, ?_, ?_, helse⟩
    · simpa using Clause.forLoop hk ho hi hco hs hin hc hb
    · rw [nodes_forBlock, List.append_assoc _ body.nodes]
      exact (hni.append hnco).append (hnin.append_comm hnb)
  · next hk =>
    refine bind (advance (by simp [hk])) fun _ d => bind (reads_condition _) fun condition d => ?_
    refine bind (ih.statement d) fun thenBranch d => ?_
    refine bind (accept_current (by simp) d) fun hasElse d => ?_
    cases hasElse with
    | true =>
      refine bind (ih.statement d) fun elseBranch d => Reads.pure _ ?_
      rintro vs i ⟨isOpen, he, hne, helse⟩ _ j ⟨⟨rfl, keywordElse, rfl, hke⟩, hcur⟩ us k
        ⟨thenOpen, ht, hnt, hthen⟩ _ l ⟨opening, closing, ts, rfl, ho, hc, hp, hn⟩ _ m ⟨rfl, rfl⟩
      -- An open branch would have taken the `else` itself.
      cases thenOpen with
      | true => exact absurd (hcur rfl) (hthen rfl)
      | false =>
        refine ⟨isOpen, ?_, (hn.append hnt).append hne, helse⟩
        simpa using Clause.ifThenElse hk ho hp hc ht hke he
    | false =>
      refine Reads.pure _ ?_
      rintro _ j ⟨⟨rfl, rfl, hne⟩, -⟩ us k ⟨thenOpen, ht, hnt, hthen⟩ _ l
        ⟨opening, closing, ts, rfl, ho, hc, hp, hn⟩ _ m ⟨rfl, rfl⟩
      refine ⟨true, ?_, hn.append hnt, fun _ => hne⟩
      simpa using Clause.ifThen hk ho hp hc ht
  · next hk =>
    refine bind (advance (by simp [hk])) fun _ d => bind (reads_condition _) fun condition d => ?_
    refine bind (ih.statement d) fun body d => Reads.pure _ ?_
    rintro us i ⟨isOpen, hb, hnb, helse⟩ _ l ⟨opening, closing, ts, rfl, ho, hc, hp, hn⟩ _ m
      ⟨rfl, rfl⟩
    refine ⟨isOpen, ?_, hn.append hnb, helse⟩
    simpa using Clause.whileLoop hk ho hp hc hb
  · next hk =>
    refine bind (advance (by simp [hk])) fun _ d => (reads_returnStatement _ hk).mono ?_
    rintro ts i j next s h _ k ⟨rfl, rfl⟩
    exact h
  · next hk =>
    refine bind (advance (by simp [hk])) fun _ d => bind (ih.block [] d) fun body d => ?_
    refine Reads.pure _ ?_
    rintro _ i ⟨_, us, closing, rfl, rfl, hc, hb, hn⟩ _ j ⟨rfl, rfl⟩
    refine ⟨false, ?_, hn, by simp⟩
    simpa using Clause.block hk hb hc
  · next hk =>
    refine bind (advance (by simp [hk])) fun _ d => reads_printStatement.mono ?_
    rintro ts i j next s h _ k ⟨rfl, rfl⟩
    exact h _ hk
  · exact reads_expressionStatement

theorem succ (ih : ReadsStatements n) : ReadsStatements (n + 1) where
  declaration := ih.succ_declaration
  classDeclaration := ih.succ_classDeclaration
  methods := ih.succ_methods
  function := ih.succ_function
  block := ih.succ_block
  statement := ih.succ_statement

theorem zero : ReadsStatements 0 where
  declaration _ := trivial
  classDeclaration _ := trivial
  methods _ _ := trivial
  function _ _ := trivial
  block _ _ := trivial
  statement _ := trivial

end ReadsStatements

/-- Whatever the depth, the rules read what the grammar says. -/
theorem readsStatements (n : Nat) : ReadsStatements n := by
  induction n with
  | zero => exact .zero
  | succ n ih => exact ih.succ

end Grammar

end Lox
