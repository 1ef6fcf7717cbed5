import Lox.Proofs.Agreement
import Lox.Proofs.Grammar.StatementComplete
import Lox.Proofs.Syntax.Lines
import Lox.Proofs.Token.Items
import Lox.Syntax.Program

/-!
# Lines in reading

Reading does nothing with lines but to pass them on, into the tree and into the faults. So tokens that
differ only in their lines are read in the same way, and what comes of it differs only in lines as well:
a line on one side stands where its counterpart stands on the other.

## Implementation notes

The counterparts are given by any relation between lines. A relation that holds only of a line and itself
says of one reading where its lines come from; one that moves lines compares two readings.
-/

namespace Lox

open Procedure

variable {ρ : Nat → Nat → Prop} {α β : Type}

/-- The same token on another line. -/
inductive Token.Relined (ρ : Nat → Nat → Prop) : Token → Token → Prop where
  | intro (kind : Token.Kind) (text : String) {k l : Nat} (line : ρ k l) :
      Token.Relined ρ ⟨kind, text, k⟩ ⟨kind, text, l⟩

theorem Token.Relined.kind_eq {t u : Token} (h : t.Relined ρ u) : t.kind = u.kind := by
  cases h
  rfl

theorem Token.Relined.line {t u : Token} (h : t.Relined ρ u) : ρ t.line u.line := by
  cases h
  assumption

/-- The same fault on another line. -/
inductive Diagnostic.Relined (ρ : Nat → Nat → Prop) : Diagnostic → Diagnostic → Prop where
  | intro (cause : Diagnostic.Cause) {k l : Nat} (line : ρ k l) :
      Diagnostic.Relined ρ ⟨cause, k⟩ ⟨cause, l⟩

/-- The same tokens are still to be read, among them an end, and the same faults are noted. -/
structure Cursor.Relined (ρ : Nat → Nat → Prop) (c d : Cursor) : Prop where
  tokens : List.Forall₂ (Token.Relined ρ) c.tokens d.tokens
  ends : ∃ t ∈ c.tokens, t.kind = .endOfSource
  faults : List.Forall₂ (Diagnostic.Relined ρ) c.faults d.faults

namespace Cursor.Relined

variable {c d : Cursor}

theorem current (h : c.Relined ρ d) : c.current.Relined ρ d.current := by
  obtain ⟨tokens, nextId, faults⟩ := c
  obtain ⟨others, otherId, otherFaults⟩ := d
  obtain ⟨htokens, ⟨t, ht, -⟩, -⟩ := h
  cases htokens with
  | nil => cases ht
  | cons hfirst => exact hfirst

theorem isAtEnd_eq (h : c.Relined ρ d) : c.isAtEnd = d.isAtEnd := by
  unfold isAtEnd
  rw [h.current.kind_eq]

/-- The end is not among the tokens that are passed. -/
theorem tail (h : c.Relined ρ d) (hend : c.isAtEnd = false) :
    Cursor.Relined ρ { c with tokens := c.tokens.tail } { d with tokens := d.tokens.tail } := by
  obtain ⟨tokens, nextId, faults⟩ := c
  obtain ⟨others, otherId, otherFaults⟩ := d
  obtain ⟨htokens, ⟨t, ht, hkind⟩, hfaults⟩ := h
  cases htokens with
  | nil => cases ht
  | cons hfirst hrest =>
    refine ⟨hrest, ⟨t, ?_, hkind⟩, hfaults⟩
    rcases List.mem_cons.1 ht with rfl | ht
    · exact absurd hkind (of_decide_eq_false hend)
    · exact ht

theorem advanced (h : c.Relined ρ d) : c.advanced.Relined ρ d.advanced := by
  unfold Cursor.advanced
  rw [← h.isAtEnd_eq]
  split
  · exact h
  · next hend => exact h.tail (Bool.eq_false_iff.2 hend)

theorem noted (h : c.Relined ρ d) (fault : SyntaxFault) {k l : Nat} (hl : ρ k l) :
    (c.noted fault k).Relined ρ (d.noted fault l) :=
  ⟨h.tokens, h.ends, .cons (.intro _ hl) h.faults⟩

end Cursor.Relined

namespace Rule

/-- Both rules do the same with tokens that differ only in their lines. -/
def Relined (ρ : Nat → Nat → Prop) (R : α → β → Prop) (x : Rule α) (y : Rule β) : Prop :=
  ∀ c d, c.Relined ρ d → Agree (fun e f c d => Diagnostic.Relined ρ e f ∧ c.Relined ρ d) x y c d
    fun a b c d => R a b ∧ c.Relined ρ d

namespace Relined

variable {γ δ : Type} {R : α → β → Prop} {Q : γ → δ → Prop} {x : Rule α} {y : Rule β}

theorem bind {f : α → Rule γ} {g : β → Rule δ} (h : Relined ρ R x y)
    (hnext : ∀ a b, R a b → Relined ρ Q (f a) (g b)) : Relined ρ Q (x >>= f) (y >>= g) :=
  fun c d hc => (h c d hc).bind fun a b c d hab => hnext a b hab.1 c d hab.2

/-- Both first parts have the same result. -/
theorem bindSame {x : Rule α} {y : Rule α} {f : α → Rule γ} {g : α → Rule δ} (h : Relined ρ Eq x y)
    (hnext : ∀ a, Relined ρ Q (f a) (g a)) : Relined ρ Q (x >>= f) (y >>= g) :=
  h.bind fun a _ hab => hab ▸ hnext a

theorem pure {a : α} {b : β} (h : R a b) : Relined ρ R (Pure.pure a) (Pure.pure b) :=
  fun _ _ hc => .of_ok rfl rfl ⟨h, hc⟩

theorem exhaust : Relined ρ R Procedure.exhaust Procedure.exhaust := fun _ _ _ => trivial

theorem fail (cause : Diagnostic.Cause) {k l : Nat} (h : ρ k l) :
    Relined ρ R (Procedure.fail ⟨cause, k⟩) (Procedure.fail ⟨cause, l⟩) :=
  fun _ _ hc => .of_error rfl rfl ⟨.intro cause h, hc⟩

theorem peek : Relined ρ (Token.Relined ρ) Rule.peek Rule.peek :=
  fun _ _ hc => .of_ok rfl rfl ⟨hc.current, hc⟩

theorem sees (kind : Token.Kind) : Relined ρ Eq (Rule.sees kind) (Rule.sees kind) := by
  refine fun c d hc => .of_ok rfl rfl ⟨?_, hc⟩
  simp only [hc.current.kind_eq]

theorem advance : Relined ρ Eq Rule.advance Rule.advance :=
  fun _ _ hc => .of_ok rfl rfl ⟨rfl, hc.advanced⟩

theorem accept? (kind : Token.Kind) :
    Relined ρ (Option.Rel (Token.Relined ρ)) (Rule.accept? kind) (Rule.accept? kind) := by
  refine bind peek fun t u h => ?_
  cases h with
  | intro other text line =>
    dsimp only
    split
    · exact bindSame advance fun _ => pure (.some (.intro other text line))
    · exact pure .none

theorem accept (kind : Token.Kind) : Relined ρ Eq (Rule.accept kind) (Rule.accept kind) := by
  refine bind (accept? kind) fun a b h => pure ?_
  cases h <;> rfl

theorem expect (kind : Token.Kind) (fault : SyntaxFault) :
    Relined ρ (Token.Relined ρ) (Rule.expect kind fault) (Rule.expect kind fault) := by
  refine bind peek fun t u h => ?_
  cases h with
  | intro other text line =>
    dsimp only
    split
    · exact bindSame advance fun _ => pure (.intro other text line)
    · exact fail _ line

theorem expectSymbol (symbol : Symbol) (place : Place) :
    Relined ρ (Token.Relined ρ) (Rule.expectSymbol symbol place) (Rule.expectSymbol symbol place) :=
  expect _ _

theorem expectName (role : NameRole) :
    Relined ρ (Identifier.Alike (.lines ρ)) (Rule.expectName role) (Rule.expectName role) := by
  refine bind (expect _ _) fun t u h => pure ?_
  cases h with
  | intro other text line => exact ⟨rfl, line⟩

theorem freshId : Relined ρ (fun _ _ => True) Rule.freshId Rule.freshId :=
  fun _ _ hc => .of_ok rfl rfl ⟨trivial, hc.tokens, hc.ends, hc.faults⟩

theorem note (fault : SyntaxFault) {k l : Nat} (h : ρ k l) :
    Relined ρ Eq (Rule.note fault k) (Rule.note fault l) :=
  fun _ _ hc => .of_ok rfl rfl ⟨rfl, hc.noted fault h⟩

theorem noteIfFull (count : Nat) (fault : SyntaxFault) :
    Relined ρ Eq (Rule.noteIfFull count fault) (Rule.noteIfFull count fault) := by
  unfold Rule.noteIfFull
  split
  · refine bind peek fun t u h => ?_
    cases h with
    | intro _ _ line => exact note fault line
  · exact pure rfl

end Relined

end Rule

/-! ### Expressions -/

namespace Grammar

open Rule

theorem join_alike {r : Likeness} {connective : Connective} {a b c d : Expr} {k l : Nat} (hl : r.line k l)
    (hleft : a.Alike r b) (hright : c.Alike r d) :
    (connective.join k a c).Alike r (connective.join l b d) := by
  cases connective with
  | binary operator => exact .binary hleft hright hl
  | logical operator => exact .logical hleft hright

/-- The rules of depth `n` for expressions do not look at lines. -/
structure ExpressionsRelined (ρ : Nat → Nat → Prop) (n : Nat) : Prop where
  expression : Relined ρ (Expr.Alike (.lines ρ)) (Rule.expression n) (Rule.expression n)
  operators : ∀ levels,
    Relined ρ (Expr.Alike (.lines ρ)) (Rule.operators n levels) (Rule.operators n levels)
  moreOperands : ∀ level tighter a b, a.Alike (.lines ρ) b → Relined ρ (Expr.Alike (.lines ρ))
    (Rule.moreOperands n level tighter a) (Rule.moreOperands n level tighter b)
  unary : Relined ρ (Expr.Alike (.lines ρ)) (Rule.unary n) (Rule.unary n)
  postfixes : ∀ a b, a.Alike (.lines ρ) b →
    Relined ρ (Expr.Alike (.lines ρ)) (Rule.postfixes n a) (Rule.postfixes n b)
  arguments : ∀ count, Relined ρ (List.Forall₂ (Expr.Alike (.lines ρ)))
    (Rule.arguments n count) (Rule.arguments n count)
  primary : Relined ρ (Expr.Alike (.lines ρ)) (Rule.primary n) (Rule.primary n)

namespace ExpressionsRelined

variable {n : Nat}

theorem assignTo {a b c d : Expr} {k l : Nat} (ht : a.Alike (.lines ρ) b) (hv : c.Alike (.lines ρ) d)
    (hl : ρ k l) :
    Relined ρ (Expr.Alike (.lines ρ)) (Rule.assignTo a c k) (Rule.assignTo b d l) := by
  cases ht with
  | reference target =>
    exact .bind .freshId fun _ _ _ => .pure (.assign ⟨trivial, target.name⟩ hv)
  | get object name => exact .pure (.set object name hv)
  | literal value => exact .bindSame (.note _ hl) fun _ => .pure (.literal value)
  | unary operand line => exact .bindSame (.note _ hl) fun _ => .pure (.unary operand line)
  | binary left right line => exact .bindSame (.note _ hl) fun _ => .pure (.binary left right line)
  | logical left right => exact .bindSame (.note _ hl) fun _ => .pure (.logical left right)
  | grouping inner => exact .bindSame (.note _ hl) fun _ => .pure (.grouping inner)
  | assign target value => exact .bindSame (.note _ hl) fun _ => .pure (.assign target value)
  | call callee arguments line =>
    exact .bindSame (.note _ hl) fun _ => .pure (.call callee arguments line)
  | set object name value => exact .bindSame (.note _ hl) fun _ => .pure (.set object name value)
  | this node line => exact .bindSame (.note _ hl) fun _ => .pure (.this node line)
  | super node line method => exact .bindSame (.note _ hl) fun _ => .pure (.super node line method)

theorem succ_expression (ih : ExpressionsRelined ρ n) :
    Relined ρ (Expr.Alike (.lines ρ)) (Rule.expression (n + 1)) (Rule.expression (n + 1)) := by
  rw [Rule.expression]
  refine .bind (ih.operators _) fun a b ht => .bind (.accept? _) fun equal other he => ?_
  cases he with
  | none => exact .pure ht
  | some he =>
    cases he with
    | intro _ _ line => exact .bind ih.expression fun c d hv => assignTo ht hv line

theorem succ_operators (ih : ExpressionsRelined ρ n) (levels : List Cursor.Level) :
    Relined ρ (Expr.Alike (.lines ρ)) (Rule.operators (n + 1) levels)
      (Rule.operators (n + 1) levels) := by
  cases levels with
  | nil => exact ih.unary
  | cons level tighter =>
    exact .bind (ih.operators tighter) fun a b h => ih.moreOperands level tighter a b h

theorem succ_moreOperands (ih : ExpressionsRelined ρ n) (level : Cursor.Level)
    (tighter : List Cursor.Level) (a b : Expr) (h : a.Alike (.lines ρ) b) :
    Relined ρ (Expr.Alike (.lines ρ)) (Rule.moreOperands (n + 1) level tighter a)
      (Rule.moreOperands (n + 1) level tighter b) := by
  rw [Rule.moreOperands, Rule.moreOperands]
  refine .bind .peek fun t u htoken => ?_
  cases htoken with
  | intro kind text line =>
    dsimp only
    cases level.lookup kind with
    | none => exact .pure h
    | some connective =>
      exact .bindSame .advance fun _ => .bind (ih.operators tighter) fun c d hright =>
        ih.moreOperands level tighter _ _ (join_alike line h hright)

theorem succ_unary (ih : ExpressionsRelined ρ n) :
    Relined ρ (Expr.Alike (.lines ρ)) (Rule.unary (n + 1)) (Rule.unary (n + 1)) := by
  rw [Rule.unary]
  refine .bind .peek fun t u htoken => ?_
  cases htoken with
  | intro kind text line =>
    dsimp only
    cases Cursor.unaryOperator? kind with
    | none => exact .bind ih.primary fun a b h => ih.postfixes a b h
    | some operator =>
      exact .bindSame .advance fun _ => .bind ih.unary fun a b h => .pure (.unary h line)

theorem optionalArguments (ih : ExpressionsRelined ρ n) :
    Relined ρ (List.Forall₂ (Expr.Alike (.lines ρ))) (Rule.optionalArguments n)
      (Rule.optionalArguments n) := by
  refine .bindSame (.sees _) fun none => ?_
  cases none with
  | true => exact .pure .nil
  | false => exact ih.arguments 0

theorem succ_postfixes (ih : ExpressionsRelined ρ n) (a b : Expr) (h : a.Alike (.lines ρ) b) :
    Relined ρ (Expr.Alike (.lines ρ)) (Rule.postfixes (n + 1) a) (Rule.postfixes (n + 1) b) := by
  rw [Rule.postfixes_succ, Rule.postfixes_succ]
  refine .bindSame (.accept _) fun invoked => ?_
  cases invoked with
  | true =>
    refine .bind ih.optionalArguments fun as bs has => .bind (.expectSymbol _ _) fun t u hclose => ?_
    cases hclose with
    | intro _ _ line => exact ih.postfixes _ _ (.call h has line)
  | false =>
    refine .bindSame (.accept _) fun dotted => ?_
    cases dotted with
    | true => exact .bind (.expectName _) fun x y hname => ih.postfixes _ _ (.get h hname)
    | false => exact .pure h

theorem succ_arguments (ih : ExpressionsRelined ρ n) (count : Nat) :
    Relined ρ (List.Forall₂ (Expr.Alike (.lines ρ))) (Rule.arguments (n + 1) count)
      (Rule.arguments (n + 1) count) := by
  rw [Rule.arguments]
  refine .bindSame (.noteIfFull count _) fun _ => .bind ih.expression fun a b h => ?_
  refine .bindSame (.accept _) fun another => ?_
  cases another with
  | true => exact .bind (ih.arguments (count + 1)) fun as bs hrest => .pure (.cons h hrest)
  | false => exact .pure (.cons h .nil)

theorem succ_primary (ih : ExpressionsRelined ρ n) :
    Relined ρ (Expr.Alike (.lines ρ)) (Rule.primary (n + 1)) (Rule.primary (n + 1)) := by
  rw [Rule.primary]
  refine .bind .peek fun t u htoken => ?_
  cases htoken with
  | intro kind text line =>
    dsimp only
    split
    · exact .bindSame .advance fun _ => .pure (.literal _)
    · exact .bindSame .advance fun _ => .pure (.literal _)
    · exact .bindSame .advance fun _ => .pure (.literal _)
    · exact .bindSame .advance fun _ => .pure (.literal _)
    · exact .bindSame .advance fun _ => .pure (.literal _)
    · exact .bindSame .advance fun _ => .bind .freshId fun _ _ _ => .pure (.this trivial line)
    · exact .bindSame .advance fun _ => .bind .freshId fun _ _ _ =>
        .pure (.reference ⟨trivial, rfl, line⟩)
    · refine .bindSame .advance fun _ => .bind (.expectSymbol _ _) fun _ _ _ => ?_
      refine .bind (.expectName _) fun x y hname => .bind .freshId fun _ _ _ => ?_
      exact .pure (.super trivial line hname)
    · refine .bindSame .advance fun _ => .bind ih.expression fun a b h => ?_
      exact .bind (.expectSymbol _ _) fun _ _ _ => .pure (.grouping h)
    · exact .fail _ line

theorem zero : ExpressionsRelined ρ 0 where
  expression := .exhaust
  operators _ := .exhaust
  moreOperands _ _ _ _ _ := .exhaust
  unary := .exhaust
  postfixes _ _ _ := .exhaust
  arguments _ := .exhaust
  primary := .exhaust

theorem succ (ih : ExpressionsRelined ρ n) : ExpressionsRelined ρ (n + 1) where
  expression := ih.succ_expression
  operators := ih.succ_operators
  moreOperands := ih.succ_moreOperands
  unary := ih.succ_unary
  postfixes := ih.succ_postfixes
  arguments := ih.succ_arguments
  primary := ih.succ_primary

end ExpressionsRelined

theorem expressionsRelined (ρ : Nat → Nat → Prop) (n : Nat) : ExpressionsRelined ρ n := by
  induction n with
  | zero => exact .zero
  | succ n ih => exact ih.succ

/-! ### Statements -/

section Parts

variable {n : Nat}

theorem relined_parameters (n count : Nat) : Relined ρ (List.Forall₂ (Identifier.Alike (.lines ρ)))
    (Rule.parameters n count) (Rule.parameters n count) := by
  induction n generalizing count with
  | zero => exact .exhaust
  | succ n ih =>
    rw [Rule.parameters]
    refine .bindSame (.noteIfFull count _) fun _ => .bind (.expectName _) fun x y hname => ?_
    refine .bindSame (.accept _) fun another => ?_
    cases another with
    | true => exact .bind (ih (count + 1)) fun xs ys hrest => .pure (.cons hname hrest)
    | false => exact .pure (.cons hname .nil)

theorem relined_optionalParameters : Relined ρ (List.Forall₂ (Identifier.Alike (.lines ρ)))
    (Rule.optionalParameters n) (Rule.optionalParameters n) := by
  refine .bindSame (.sees _) fun none => ?_
  cases none with
  | true => exact .pure .nil
  | false => exact relined_parameters n 0

theorem relined_expressionUnless (symbol : Symbol) : Relined ρ (Option.Rel (Expr.Alike (.lines ρ)))
    (Rule.expressionUnless symbol n) (Rule.expressionUnless symbol n) := by
  refine .bindSame (.sees _) fun missing => ?_
  cases missing with
  | true => exact .pure .none
  | false => exact .bind (expressionsRelined ρ n).expression fun a b h => .pure (.some h)

theorem relined_initialValue : Relined ρ (Option.Rel (Expr.Alike (.lines ρ)))
    (Rule.initialValue n) (Rule.initialValue n) := by
  refine .bindSame (.accept _) fun given => ?_
  cases given with
  | true => exact .bind (expressionsRelined ρ n).expression fun a b h => .pure (.some h)
  | false => exact .pure .none

theorem relined_variableDeclaration : Relined ρ (Stmt.Alike (.lines ρ))
    (Rule.variableDeclaration n) (Rule.variableDeclaration n) := by
  rw [Rule.variableDeclaration_eq]
  refine .bind (.expectName _) fun x y hname => .bind relined_initialValue fun a b h => ?_
  exact .bind (.expectSymbol _ _) fun _ _ _ => .pure (.var hname h)

theorem relined_expressionStatement : Relined ρ (Stmt.Alike (.lines ρ))
    (Rule.expressionStatement n) (Rule.expressionStatement n) :=
  .bind (expressionsRelined ρ n).expression fun _ _ h => .bind (.expectSymbol _ _) fun _ _ _ =>
    .pure (.expression h)

theorem relined_printStatement : Relined ρ (Stmt.Alike (.lines ρ))
    (Rule.printStatement n) (Rule.printStatement n) :=
  .bind (expressionsRelined ρ n).expression fun _ _ h => .bind (.expectSymbol _ _) fun _ _ _ =>
    .pure (.print h)

theorem relined_returnStatement {k l : Nat} (line : ρ k l) : Relined ρ (Stmt.Alike (.lines ρ))
    (Rule.returnStatement n k) (Rule.returnStatement n l) :=
  .bind (relined_expressionUnless _) fun _ _ h => .bind (.expectSymbol _ _) fun _ _ _ =>
    .pure (.ret line h)

theorem relined_condition (keyword : Keyword) : Relined ρ (Expr.Alike (.lines ρ))
    (Rule.condition keyword n) (Rule.condition keyword n) := by
  refine .bind (.expectSymbol _ _) fun _ _ _ => .bind (expressionsRelined ρ n).expression fun a b h => ?_
  exact .bind (.expectSymbol _ _) fun _ _ _ => .pure h

theorem relined_forInitial : Relined ρ (Option.Rel (Stmt.Alike (.lines ρ)))
    (Rule.forInitial n) (Rule.forInitial n) := by
  refine .bindSame (.accept _) fun missing => ?_
  cases missing with
  | true => exact .pure .none
  | false =>
    refine .bindSame (.accept _) fun declared => ?_
    cases declared with
    | true => exact .bind relined_variableDeclaration fun a b h => .pure (.some h)
    | false => exact .bind relined_expressionStatement fun a b h => .pure (.some h)

theorem relined_superclassClause : Relined ρ (Option.Rel (Reference.Alike (.lines ρ)))
    Rule.superclassClause Rule.superclassClause := by
  refine .bindSame (.accept _) fun inherits => ?_
  cases inherits with
  | true =>
    exact .bind (.expectName _) fun x y hname => .bind .freshId fun _ _ _ => .pure (.some ⟨trivial, hname⟩)
  | false => exact .pure .none

theorem relined_bodyEnds : Relined ρ Eq Rule.bodyEnds Rule.bodyEnds := by
  refine .bind .peek fun t u h => .pure ?_
  rw [h.kind_eq]

end Parts

/-- The rules of depth `n` for statements do not look at lines. -/
structure StatementsRelined (ρ : Nat → Nat → Prop) (n : Nat) : Prop where
  declaration : Relined ρ (Stmt.Alike (.lines ρ)) (Rule.declaration n) (Rule.declaration n)
  classDeclaration :
    Relined ρ (Stmt.Alike (.lines ρ)) (Rule.classDeclaration n) (Rule.classDeclaration n)
  methods : ∀ fs gs, List.Forall₂ (FunctionDef.Alike (.lines ρ)) fs gs →
    Relined ρ (List.Forall₂ (FunctionDef.Alike (.lines ρ))) (Rule.methods n fs) (Rule.methods n gs)
  function : ∀ role,
    Relined ρ (FunctionDef.Alike (.lines ρ)) (Rule.function n role) (Rule.function n role)
  block : ∀ as bs, StmtsAlike (.lines ρ) as bs →
    Relined ρ (StmtsAlike (.lines ρ)) (Rule.block n as) (Rule.block n bs)
  statement : Relined ρ (Stmt.Alike (.lines ρ)) (Rule.statement n) (Rule.statement n)

namespace StatementsRelined

variable {n : Nat}

theorem succ_declaration (ih : StatementsRelined ρ n) :
    Relined ρ (Stmt.Alike (.lines ρ)) (Rule.declaration (n + 1)) (Rule.declaration (n + 1)) := by
  rw [Rule.declaration]
  refine .bindSame (.accept _) fun isClass => ?_
  cases isClass with
  | true => exact ih.classDeclaration
  | false =>
    refine .bindSame (.accept _) fun isFunction => ?_
    cases isFunction with
    | true => exact .bind (ih.function _) fun f g h => .pure (.function h)
    | false =>
      refine .bindSame (.accept _) fun isVariable => ?_
      cases isVariable with
      | true => exact relined_variableDeclaration
      | false => exact ih.statement

theorem succ_classDeclaration (ih : StatementsRelined ρ n) : Relined ρ (Stmt.Alike (.lines ρ))
    (Rule.classDeclaration (n + 1)) (Rule.classDeclaration (n + 1)) := by
  rw [Rule.classDeclaration_succ]
  refine .bind (.expectName _) fun x y hname => .bind relined_superclassClause fun s t hsuper => ?_
  refine .bind (.expectSymbol _ _) fun _ _ _ => .bind (ih.methods [] [] .nil) fun fs gs hmethods => ?_
  exact .bind (.expectSymbol _ _) fun _ _ _ => .pure (.classDef hname hsuper hmethods)

theorem succ_methods (ih : StatementsRelined ρ n) (fs gs : List FunctionDef)
    (h : List.Forall₂ (FunctionDef.Alike (.lines ρ)) fs gs) :
    Relined ρ (List.Forall₂ (FunctionDef.Alike (.lines ρ))) (Rule.methods (n + 1) fs)
      (Rule.methods (n + 1) gs) := by
  rw [Rule.methods, Rule.methods]
  refine .bindSame relined_bodyEnds fun ends => ?_
  cases ends with
  | true => exact .pure (List.rel_reverse h)
  | false => exact .bind (ih.function _) fun f g hf => ih.methods _ _ (.cons hf h)

theorem succ_function (ih : StatementsRelined ρ n) (role : FunctionRole) :
    Relined ρ (FunctionDef.Alike (.lines ρ)) (Rule.function (n + 1) role)
      (Rule.function (n + 1) role) := by
  rw [Rule.function_succ]
  refine .bind (.expectName _) fun x y hname => .bind (.expectSymbol _ _) fun _ _ _ => ?_
  refine .bind relined_optionalParameters fun xs ys hparams => .bind (.expectSymbol _ _) fun _ _ _ => ?_
  refine .bind (.expectSymbol _ _) fun _ _ _ => .bind (ih.block [] [] .nil) fun as bs hbody => ?_
  exact .pure (.intro hname hparams hbody)

theorem succ_block (ih : StatementsRelined ρ n) (as bs : List Stmt) (h : StmtsAlike (.lines ρ) as bs) :
    Relined ρ (StmtsAlike (.lines ρ)) (Rule.block (n + 1) as) (Rule.block (n + 1) bs) := by
  rw [Rule.block, Rule.block]
  refine .bindSame relined_bodyEnds fun ends => ?_
  cases ends with
  | true => exact .bind (.expectSymbol _ _) fun _ _ _ => .pure (List.rel_reverse h)
  | false => exact .bind ih.declaration fun a b ha => ih.block _ _ (.cons ha h)

theorem forLoop_alike {a b : Option Stmt} {c d e f : Option Expr} {s t : Stmt} {r : Likeness}
    (hi : Option.Rel (Stmt.Alike r) a b) (hc : Option.Rel (Expr.Alike r) c d)
    (hn : Option.Rel (Expr.Alike r) e f) (hs : s.Alike r t) :
    (Stmt.forLoop a c e s).Alike r (Stmt.forLoop b d f t) := by
  rw [Stmt.forLoop_eq_forBlock, Stmt.forLoop_eq_forBlock]
  exact forBlock_alike hi hc hn hs

theorem succ_statement (ih : StatementsRelined ρ n) :
    Relined ρ (Stmt.Alike (.lines ρ)) (Rule.statement (n + 1)) (Rule.statement (n + 1)) := by
  rw [Rule.statement]
  refine .bind .peek fun t u htoken => ?_
  cases htoken with
  | intro kind text line =>
    dsimp only
    split
    · refine .bindSame .advance fun _ => .bind (.expectSymbol _ _) fun _ _ _ => ?_
      refine .bind relined_forInitial fun i j hinitial => ?_
      refine .bind (relined_expressionUnless _) fun a b hcondition => ?_
      refine .bind (.expectSymbol _ _) fun _ _ _ => ?_
      refine .bind (relined_expressionUnless _) fun c d hincrement => ?_
      refine .bind (.expectSymbol _ _) fun _ _ _ => .bind ih.statement fun s t hbody => .pure ?_
      exact forLoop_alike hinitial hcondition hincrement hbody
    · refine .bindSame .advance fun _ => .bind (relined_condition _) fun a b hcondition => ?_
      refine .bind ih.statement fun s t hthen => .bindSame (.accept _) fun hasElse => ?_
      cases hasElse with
      | true =>
        exact .bind ih.statement fun s' t' helse => .pure (.conditional hcondition hthen (.some helse))
      | false => exact .pure (.conditional hcondition hthen .none)
    · refine .bindSame .advance fun _ => .bind (relined_condition _) fun a b hcondition => ?_
      exact .bind ih.statement fun s t hbody => .pure (.whileLoop hcondition hbody)
    · exact .bindSame .advance fun _ => relined_returnStatement line
    · exact .bindSame .advance fun _ => .bind (ih.block [] [] .nil) fun as bs hbody =>
        .pure (.block hbody)
    · exact .bindSame .advance fun _ => relined_printStatement
    · exact relined_expressionStatement

theorem zero : StatementsRelined ρ 0 where
  declaration := .exhaust
  classDeclaration := .exhaust
  methods _ _ _ := .exhaust
  function _ := .exhaust
  block _ _ _ := .exhaust
  statement := .exhaust

theorem succ (ih : StatementsRelined ρ n) : StatementsRelined ρ (n + 1) where
  declaration := ih.succ_declaration
  classDeclaration := ih.succ_classDeclaration
  methods := ih.succ_methods
  function := ih.succ_function
  block := ih.succ_block
  statement := ih.succ_statement

end StatementsRelined

theorem statementsRelined (ρ : Nat → Nat → Prop) (n : Nat) : StatementsRelined ρ n := by
  induction n with
  | zero => exact .zero
  | succ n ih => exact ih.succ

end Grammar

/-! ### Programs -/

namespace Cursor

/-- The tokens dropped are the same, and the end is not among them. -/
theorem relined_fromBoundary {ts us : List Token} (h : List.Forall₂ (Token.Relined ρ) ts us)
    (hend : ∃ t ∈ ts, t.kind = .endOfSource) (before : Token.Kind) :
    List.Forall₂ (Token.Relined ρ) (fromBoundary before ts) (fromBoundary before us) ∧
      ∃ t ∈ fromBoundary before ts, t.kind = .endOfSource := by
  induction h generalizing before with
  | nil => exact ⟨.nil, hend⟩
  | @cons t u ts us ht hrest ih =>
    rw [fromBoundary, fromBoundary, ← ht.kind_eq]
    split
    · exact ⟨.cons ht hrest, hend⟩
    · next hgoes =>
      refine ih ?_ _
      obtain ⟨x, hx, hkind⟩ := hend
      -- An end is a boundary, so it is not the token that was dropped.
      rcases List.mem_cons.1 hx with rfl | hx
      · rw [hkind] at hgoes
        exact absurd rfl hgoes
      · exact ⟨x, hx, hkind⟩

theorem Relined.synchronized {c d : Cursor} (h : c.Relined ρ d) :
    c.synchronized.Relined ρ d.synchronized := by
  unfold Cursor.synchronized
  rw [← h.isAtEnd_eq, ← h.current.kind_eq]
  split
  · exact h
  · next hend =>
    have htail := h.tail (Bool.eq_false_iff.2 hend)
    obtain ⟨htokens, hends⟩ := relined_fromBoundary htail.tokens htail.ends c.current.kind
    exact ⟨htokens, hends, h.faults⟩

theorem Relined.declarations {c d : Cursor} (h : c.Relined ρ d) (depth n : Nat) {as bs : List Stmt}
    (hs : StmtsAlike (.lines ρ) as bs) :
    StmtsAlike (.lines ρ) (declarations depth n as c).1 (declarations depth n bs d).1 ∧
      (declarations depth n as c).2.Relined ρ (declarations depth n bs d).2 := by
  induction n generalizing c d as bs with
  | zero => exact ⟨List.rel_reverse hs, h⟩
  | succ n ih =>
    rw [Cursor.declarations, Cursor.declarations, ← h.isAtEnd_eq]
    split
    · exact ⟨List.rel_reverse hs, h⟩
    · rcases ((Grammar.statementsRelined ρ depth).declaration c d h).cases with
        ⟨a, b, c', d', hc, hd, hab, hafter⟩ | ⟨e, f, c', d', hc, hd, hef, hafter⟩ | ⟨hc, hd⟩
      · rw [hc, hd]
        exact ih hafter (.cons hab hs)
      · rw [hc, hd]
        refine ih (Relined.synchronized ?_) hs
        exact ⟨hafter.tokens, hafter.ends, .cons hef hafter.faults⟩
      · rw [hc, hd]
        exact ⟨List.rel_reverse hs, h.noted _ h.current.line⟩

end Cursor

namespace Reading

/-- What came of two readings is a tree each or faults each, which differ only in lines. -/
inductive Relined (ρ : Nat → Nat → Prop) :
    Except (List Diagnostic) (List Stmt) → Except (List Diagnostic) (List Stmt) → Prop where
  | read {as bs : List Stmt} (h : StmtsAlike (.lines ρ) as bs) : Relined ρ (.ok as) (.ok bs)
  | turnedDown {es fs : List Diagnostic} (h : List.Forall₂ (Diagnostic.Relined ρ) es fs) :
      Relined ρ (.error es) (.error fs)

/-- Tokens on other lines are read as a program in the same way. -/
theorem relined_ofTokens {ts us : List Token} (h : List.Forall₂ (Token.Relined ρ) ts us)
    (hend : ∃ t ∈ ts, t.kind = .endOfSource) (i j : NodeId) :
    Relined ρ (ofTokens ts i).result (ofTokens us j).result := by
  have hstart : Cursor.Relined ρ ⟨ts, i, []⟩ ⟨us, j, []⟩ := ⟨h, hend, .nil⟩
  obtain ⟨hstatements, -, -, hfaults⟩ :=
    hstart.declarations (Cursor.depthFor ts) ts.length List.Forall₂.nil
  have hdepth : Cursor.depthFor us = Cursor.depthFor ts := by
    rw [Cursor.depthFor, Cursor.depthFor, h.length_eq]
  simp only [ofTokens, hdepth, ← h.length_eq]
  split
  · next hnone =>
    rw [List.isEmpty_iff.1 hnone, List.forall₂_nil_left_iff] at hfaults
    rw [hfaults]
    exact .read hstatements
  · next hsome =>
    rw [if_neg fun hnone => ?_]
    · exact .turnedDown (List.rel_reverse hfaults)
    · rw [List.isEmpty_iff.1 hnone, List.forall₂_nil_right_iff] at hfaults
      rw [hfaults] at hsome
      exact hsome rfl

/-- What is read of tokens has lines of the tokens. -/
theorem within_ofTokens {P : Nat → Prop} {ts : List Token} (h : ∀ t ∈ ts, P t.line)
    (hend : ∃ t ∈ ts, t.kind = .endOfSource) (i : NodeId) :
    (∀ statements, (ofTokens ts i).result = .ok statements → Stmt.WithinAll P statements) ∧
      ∀ faults, (ofTokens ts i).result = .error faults → ∀ fault ∈ faults, P fault.line := by
  have hself : List.Forall₂ (Token.Relined fun line _ => P line) ts ts :=
    List.forall₂_same.2 fun t ht => .intro t.kind t.text (h t ht)
  have hread := relined_ofTokens hself hend i i
  constructor
  · intro statements hok
    rw [hok] at hread
    cases hread with
    | read h => exact h
  · intro faults herror fault hmem
    rw [herror] at hread
    cases hread with
    | turnedDown h =>
      have hfault := List.forall₂_same.1 h fault hmem
      cases hfault
      assumption

/-- Putting faults in order neither loses nor adds one. -/
theorem mem_byLine {faults : List Diagnostic} {fault : Diagnostic} :
    fault ∈ byLine faults ↔ fault ∈ faults := (List.mergeSort_perm faults _).mem_iff

/-- What is read of a source has lines of its tokens and of what is no token. -/
theorem within_ofSource {P : Nat → Prop} {source : String}
    (htokens : ∀ t ∈ (Scan.ofText source).tokens, P t.line)
    (hfaults : ∀ fault ∈ (Scan.ofText source).faults, P fault.line) (i : NodeId) :
    (∀ statements, (ofSource source i).result = .ok statements → Stmt.WithinAll P statements) ∧
      ∀ faults, (ofSource source i).result = .error faults → ∀ fault ∈ faults, P fault.line := by
  obtain ⟨body, line, hend, -⟩ := Scan.tokens_eq_append_end source
  have hends : ∃ t ∈ (Scan.ofText source).tokens, t.kind = .endOfSource :=
    ⟨.atEnd line, hend ▸ List.mem_append_right _ (List.mem_singleton_self _), rfl⟩
  obtain ⟨hread, hturned⟩ := within_ofTokens htokens hends i
  simp only [ofSource]
  cases hresult : (ofTokens (Scan.ofText source).tokens i).result with
  | ok statements =>
    simp only
    split
    · refine ⟨?_, nofun⟩
      rintro _ ⟨⟩
      exact hread _ hresult
    · refine ⟨nofun, ?_⟩
      rintro _ ⟨⟩
      exact hfaults
  | error faults =>
    refine ⟨nofun, ?_⟩
    rintro _ ⟨⟩ fault hmem
    rcases List.mem_append.1 (mem_byLine.1 hmem) with hmem | hmem
    · exact hfaults fault hmem
    · exact hturned faults hresult fault hmem

end Reading

end Lox
