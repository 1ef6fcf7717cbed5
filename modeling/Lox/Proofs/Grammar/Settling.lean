import Lox.Proofs.Grammar.StatementSound
import Lox.Syntax.Program

/-!
# Reading comes to an end

Rules pass tokens and never give one back. So a depth that is large enough for the number of tokens lets
a rule come to an end, in order or with a fault, and a larger depth changes nothing in what it does.

## Implementation notes

Sixteen calls may nest for each token, and some more from a rule on before it passes its first one. These
are counted from the rules that pass a token at once.

## Main results

* `Grammar.declaration_settles`: a declaration comes to the same end at every depth that is large enough.
* `Cursor.declarations_settle`: so do all declarations up to the end.
-/

namespace Lox

open Procedure

namespace Cursor

variable {c : Cursor}

theorem length_tail_of_not_atEnd (h : c.isAtEnd = false) :
    c.tokens.tail.length + 1 = c.tokens.length := by
  have hcurrent : c.current.kind ≠ .endOfSource := of_decide_eq_false h
  rw [Rule.Reads.tokens_eq_cons hcurrent]
  rfl

theorem length_fromBoundary_le (before : Token.Kind) (tokens : List Token) :
    (fromBoundary before tokens).length ≤ tokens.length := by
  induction tokens generalizing before with
  | nil => exact Nat.le_refl _
  | cons token rest ih =>
    rw [fromBoundary]
    split
    · exact Nat.le_refl _
    · exact Nat.le_succ_of_le (ih token.kind)

theorem length_synchronized (h : c.isAtEnd = false) :
    c.synchronized.tokens.length + 1 ≤ c.tokens.length := by
  rw [synchronized, h, if_neg Bool.false_ne_true, ← length_tail_of_not_atEnd h]
  exact Nat.succ_le_succ (length_fromBoundary_le _ _)

end Cursor

namespace Rule

variable {α β : Type}

/-- From the cursor on both rules do the same and come to an end. They give no token back, and if they
succeed, they pass at least so many. -/
def Settles (c : Cursor) (passed : Nat) (x y : Rule α) : Prop :=
  y c = x c ∧ match x c with
    | .ok _ d => d.tokens.length + passed ≤ c.tokens.length
    | .error _ d => d.tokens.length ≤ c.tokens.length
    | .exhausted => False

namespace Settles

variable {c : Cursor} {p q : Nat} {x y : Rule α} {f g : α → Rule β} {kind : Token.Kind}

theorem ok {a : α} {d : Cursor} (hx : x c = .ok a d) (hy : y c = .ok a d)
    (hle : d.tokens.length + p ≤ c.tokens.length) : Settles c p x y := by
  refine ⟨hy.trans hx.symm, ?_⟩
  rw [hx]
  exact hle

/-- Both rules succeed or both of them fail, with the same outcome. -/
theorem cases (h : Settles c p x y) :
    (∃ a d, x c = .ok a d ∧ y c = .ok a d ∧ d.tokens.length + p ≤ c.tokens.length) ∨
      ∃ fault d, x c = .error fault d ∧ y c = .error fault d ∧
        d.tokens.length ≤ c.tokens.length := by
  obtain ⟨hsame, hlength⟩ := h
  cases ho : x c with
  | ok a d =>
    rw [ho] at hsame hlength
    exact .inl ⟨a, d, rfl, hsame, hlength⟩
  | error fault d =>
    rw [ho] at hsame hlength
    exact .inr ⟨fault, d, rfl, hsame, hlength⟩
  | exhausted =>
    rw [ho] at hlength
    exact hlength.elim

theorem weaken (h : Settles c p x y) (hle : q ≤ p) : Settles c q x y := by
  rcases h.cases with ⟨a, d, hx, hy, hlength⟩ | ⟨fault, d, hx, hy, hlength⟩
  · exact .ok hx hy (Nat.le_trans (Nat.add_le_add_left hle _) hlength)
  · refine ⟨hy.trans hx.symm, ?_⟩
    rw [hx]
    exact hlength

/-- Two rules in a row. -/
theorem bind (h : Settles c p x y)
    (hnext : ∀ a d, d.tokens.length + p ≤ c.tokens.length → Settles d (q - p) (f a) (g a)) :
    Settles c q (x >>= f) (y >>= g) := by
  rcases h.cases with ⟨a, d, hx, hy, hlength⟩ | ⟨fault, d, hx, hy, hlength⟩
  · unfold Settles
    rw [bind_apply_of_ok hx, bind_apply_of_ok hy]
    rcases (hnext a d hlength).cases with ⟨b, e, hf, hg, hle⟩ | ⟨fault, e, hf, hg, hle⟩
    · rw [hf, hg]
      exact ⟨rfl, by omega⟩
    · rw [hf, hg]
      exact ⟨rfl, by omega⟩
  · unfold Settles
    rw [bind_apply_of_error hx, bind_apply_of_error hy]
    exact ⟨rfl, hlength⟩

theorem pure (a : α) : Settles c 0 (Pure.pure a) (Pure.pure a) := .ok rfl rfl (Nat.le_refl _)

theorem fail (fault : Diagnostic) : Settles c p (Procedure.fail fault : Rule α) (Procedure.fail fault) :=
  ⟨rfl, Nat.le_refl _⟩

/-- Looking ahead passes nothing; what follows may depend on the token at hand. -/
theorem peek {f g : Token → Rule β} (h : Settles c q (f c.current) (g c.current)) :
    Settles c q (Rule.peek >>= f) (Rule.peek >>= g) := h

/-- A test passes nothing. -/
theorem test {t : Cursor → Bool} {f g : Bool → Rule β} (h : ∀ b, Settles c q (f b) (g b)) :
    Settles c q (Procedure.read t >>= f) (Procedure.read t >>= g) := h _

theorem advance (h : c.current.kind ≠ .endOfSource) : Settles c 1 Rule.advance Rule.advance := by
  have hend : c.isAtEnd = false := decide_eq_false h
  refine .ok rfl rfl (Nat.le_of_eq ?_)
  rw [Reads.advanced_of_ne h]
  exact Cursor.length_tail_of_not_atEnd hend

/-- The token at hand is passed if it is of this kind. -/
theorem accept? (hk : kind ≠ .endOfSource) {f g : Option Token → Rule β}
    (hsome : ∀ t d, d.tokens.length + 1 ≤ c.tokens.length → Settles d (q - 1) (f (some t)) (g (some t)))
    (hnone : Settles c q (f none) (g none)) :
    Settles c q (Rule.accept? kind >>= f) (Rule.accept? kind >>= g) := by
  unfold Rule.accept?
  rw [bind_assoc, bind_assoc]
  apply peek
  split
  · next h =>
    rw [bind_assoc, bind_assoc]
    exact .bind (advance (h ▸ hk)) fun _ d hd => hsome _ d hd
  · exact hnone

theorem accept (hk : kind ≠ .endOfSource) {f g : Bool → Rule β}
    (htrue : ∀ d, d.tokens.length + 1 ≤ c.tokens.length → Settles d (q - 1) (f true) (g true))
    (hfalse : Settles c q (f false) (g false)) :
    Settles c q (Rule.accept kind >>= f) (Rule.accept kind >>= g) := by
  unfold Rule.accept
  rw [bind_assoc, bind_assoc]
  exact .accept? hk (fun _ d hd => htrue d hd) hfalse

theorem expect (fault : SyntaxFault) (hk : kind ≠ .endOfSource) :
    Settles c 1 (Rule.expect kind fault) (Rule.expect kind fault) := by
  apply peek
  split
  · next h => exact .bind (advance (h ▸ hk)) fun _ _ _ => .pure _
  · exact .fail _

theorem expectSymbol (symbol : Symbol) (place : Place) :
    Settles c 1 (Rule.expectSymbol symbol place) (Rule.expectSymbol symbol place) :=
  .expect _ (by simp)

theorem expectName (role : NameRole) :
    Settles c 1 (Rule.expectName role) (Rule.expectName role) :=
  .bind (.expect _ (by simp)) fun _ _ _ => .pure _

theorem freshId : Settles c 0 Rule.freshId Rule.freshId := .ok rfl rfl (Nat.le_refl _)

theorem note (fault : SyntaxFault) (line : Nat) :
    Settles c 0 (Rule.note fault line) (Rule.note fault line) := .ok rfl rfl (Nat.le_refl _)

theorem noteIfFull (count : Nat) (fault : SyntaxFault) :
    Settles c 0 (Rule.noteIfFull count fault) (Rule.noteIfFull count fault) := by
  unfold Rule.noteIfFull
  split
  · exact peek (.note _ _)
  · exact .pure _

end Settles

end Rule

/-! ### Expressions -/

namespace Grammar

open Rule

/-- No operator is the end. -/
theorem lookup_endOfSource : ∀ level ∈ Cursor.levels, level.lookup .endOfSource = none := by decide

/-- The rules for expressions come to the same end at both depths, if the first one is large enough. -/
structure ExpressionsSettle (n m : Nat) : Prop where
  expression : ∀ c : Cursor, 16 * c.tokens.length + 10 ≤ n →
    Settles c 1 (Rule.expression n) (Rule.expression m)
  operators : ∀ (c : Cursor) levels, levels <:+ Cursor.levels →
    16 * c.tokens.length + levels.length + 3 ≤ n →
    Settles c 1 (Rule.operators n levels) (Rule.operators m levels)
  moreOperands : ∀ (c : Cursor) level tighter left, level :: tighter <:+ Cursor.levels →
    16 * c.tokens.length + 1 ≤ n →
    Settles c 0 (Rule.moreOperands n level tighter left) (Rule.moreOperands m level tighter left)
  unary : ∀ c : Cursor, 16 * c.tokens.length + 2 ≤ n → Settles c 1 (Rule.unary n) (Rule.unary m)
  postfixes : ∀ (c : Cursor) e, 16 * c.tokens.length + 1 ≤ n →
    Settles c 0 (Rule.postfixes n e) (Rule.postfixes m e)
  arguments : ∀ (c : Cursor) count, 16 * c.tokens.length + 11 ≤ n →
    Settles c 1 (Rule.arguments n count) (Rule.arguments m count)
  primary : ∀ c : Cursor, 16 * c.tokens.length + 1 ≤ n →
    Settles c 1 (Rule.primary n) (Rule.primary m)

namespace ExpressionsSettle

variable {n m : Nat} {c : Cursor}

theorem assignTo (target value : Expr) (line : Nat) :
    Settles c 0 (Rule.assignTo target value line) (Rule.assignTo target value line) := by
  cases target with
  | reference r => exact .bind .freshId fun _ _ _ => .pure _
  | get object name => exact .pure _
  | _ => exact .bind (.note _ _) fun _ _ _ => .pure _

theorem succ_expression (ih : ExpressionsSettle n m) (hn : 16 * c.tokens.length + 10 ≤ n + 1) :
    Settles c 1 (Rule.expression (n + 1)) (Rule.expression (m + 1)) := by
  rw [Rule.expression, Rule.expression]
  have hlevels : Cursor.levels.length = 6 := rfl
  refine .bind (ih.operators c _ List.suffix_rfl (by omega)) fun target d hd => ?_
  refine .accept? (by simp) (fun equal e he => ?_) ?_
  · exact .bind (ih.expression e (by omega)) fun value _ _ => assignTo target value equal.line
  · exact .pure _

theorem succ_operators (ih : ExpressionsSettle n m) (levels : List Cursor.Level)
    (hlevels : levels <:+ Cursor.levels) (hn : 16 * c.tokens.length + levels.length + 3 ≤ n + 1) :
    Settles c 1 (Rule.operators (n + 1) levels) (Rule.operators (m + 1) levels) := by
  cases levels with
  | nil => exact ih.unary c (by simpa using hn)
  | cons level tighter =>
    rw [List.length_cons] at hn
    have htighter := (List.suffix_cons level tighter).trans hlevels
    refine .bind (ih.operators c tighter htighter (by omega)) fun left d hd => ?_
    exact ih.moreOperands d level tighter left hlevels (by omega)

theorem succ_moreOperands (ih : ExpressionsSettle n m) (level : Cursor.Level)
    (tighter : List Cursor.Level) (left : Expr) (hlevels : level :: tighter <:+ Cursor.levels)
    (hn : 16 * c.tokens.length + 1 ≤ n + 1) :
    Settles c 0 (Rule.moreOperands (n + 1) level tighter left)
      (Rule.moreOperands (m + 1) level tighter left) := by
  rw [Rule.moreOperands, Rule.moreOperands]
  apply Settles.peek
  cases hlookup : level.lookup c.current.kind with
  | none => exact .pure _
  | some connective =>
    have hend : c.current.kind ≠ .endOfSource := by
      intro hend
      rw [hend, lookup_endOfSource level (hlevels.mem List.mem_cons_self)] at hlookup
      cases hlookup
    have htighter := (List.suffix_cons level tighter).trans hlevels
    have hlength : (level :: tighter).length ≤ 6 := hlevels.length_le
    rw [List.length_cons] at hlength
    refine .bind (.advance hend) fun _ d hd => ?_
    refine .bind (ih.operators d tighter htighter (by omega)) fun right e he => ?_
    exact ih.moreOperands e level tighter _ hlevels (by omega)

theorem succ_unary (ih : ExpressionsSettle n m) (hn : 16 * c.tokens.length + 2 ≤ n + 1) :
    Settles c 1 (Rule.unary (n + 1)) (Rule.unary (m + 1)) := by
  rw [Rule.unary, Rule.unary]
  apply Settles.peek
  cases hoperator : Cursor.unaryOperator? c.current.kind with
  | none =>
    refine .bind (ih.primary c (by omega)) fun callee d hd => ?_
    exact ih.postfixes d callee (by omega)
  | some operator =>
    have hend : c.current.kind ≠ .endOfSource := by
      intro hend
      rw [hend] at hoperator
      cases hoperator
    refine .bind (.advance hend) fun _ d hd => ?_
    exact .bind (ih.unary d (by omega)) fun _ _ _ => .pure _

theorem optionalArguments (ih : ExpressionsSettle n m) (hn : 16 * c.tokens.length + 11 ≤ n) :
    Settles c 0 (Rule.optionalArguments n) (Rule.optionalArguments m) := by
  refine .test fun missing => ?_
  cases missing with
  | true => exact .pure _
  | false => exact (ih.arguments c 0 hn).weaken (Nat.zero_le 1)

theorem succ_postfixes (ih : ExpressionsSettle n m) (e : Expr) (hn : 16 * c.tokens.length + 1 ≤ n + 1) :
    Settles c 0 (Rule.postfixes (n + 1) e) (Rule.postfixes (m + 1) e) := by
  rw [Rule.postfixes_succ, Rule.postfixes_succ]
  refine .accept (by simp) (fun d hd => ?_) ?_
  · refine .bind (ih.optionalArguments (by omega)) fun arguments e he => ?_
    exact .bind (.expectSymbol _ _) fun close k hk => ih.postfixes k _ (by omega)
  · refine .accept (by simp) (fun d hd => ?_) ?_
    · exact .bind (.expectName _) fun name k hk => ih.postfixes k _ (by omega)
    · exact .pure _

theorem succ_arguments (ih : ExpressionsSettle n m) (count : Nat)
    (hn : 16 * c.tokens.length + 11 ≤ n + 1) :
    Settles c 1 (Rule.arguments (n + 1) count) (Rule.arguments (m + 1) count) := by
  rw [Rule.arguments, Rule.arguments]
  refine .bind (.noteIfFull count _) fun _ d hd => ?_
  refine .bind (ih.expression d (by omega)) fun argument e he => ?_
  refine .accept (by simp) (fun k hk => ?_) ?_
  · exact .bind (ih.arguments k (count + 1) (by omega)) fun _ _ _ => .pure _
  · exact .pure _

theorem succ_primary (ih : ExpressionsSettle n m) (hn : 16 * c.tokens.length + 1 ≤ n + 1) :
    Settles c 1 (Rule.primary (n + 1)) (Rule.primary (m + 1)) := by
  rw [Rule.primary, Rule.primary]
  apply Settles.peek
  have hadvance : c.current.kind ≠ .endOfSource → Settles c 1 Rule.advance Rule.advance := .advance
  generalize c.current.kind = kind at hadvance
  split
  · exact .bind (hadvance (by simp)) fun _ _ _ => .pure _
  · exact .bind (hadvance (by simp)) fun _ _ _ => .pure _
  · exact .bind (hadvance (by simp)) fun _ _ _ => .pure _
  · exact .bind (hadvance (by simp)) fun _ _ _ => .pure _
  · exact .bind (hadvance (by simp)) fun _ _ _ => .pure _
  · exact .bind (hadvance (by simp)) fun _ _ _ => .bind .freshId fun _ _ _ => .pure _
  · exact .bind (hadvance (by simp)) fun _ _ _ => .bind .freshId fun _ _ _ => .pure _
  · refine .bind (hadvance (by simp)) fun _ _ _ => ?_
    refine .bind (.expectSymbol _ _) fun _ _ _ => .bind (.expectName _) fun _ _ _ => ?_
    exact .bind .freshId fun _ _ _ => .pure _
  · refine .bind (hadvance (by simp)) fun _ d hd => ?_
    refine .bind (ih.expression d (by omega)) fun inner e he => ?_
    exact .bind (.expectSymbol _ _) fun _ _ _ => .pure _
  · exact .fail _

theorem zero (m : Nat) : ExpressionsSettle 0 m where
  expression _ hn := nomatch hn
  operators _ _ _ hn := nomatch hn
  moreOperands _ _ _ _ _ hn := nomatch hn
  unary _ hn := nomatch hn
  postfixes _ _ hn := nomatch hn
  arguments _ _ hn := nomatch hn
  primary _ hn := nomatch hn

theorem succ (ih : ExpressionsSettle n m) : ExpressionsSettle (n + 1) (m + 1) where
  expression _ := ih.succ_expression
  operators _ := ih.succ_operators
  moreOperands _ := ih.succ_moreOperands
  unary _ := ih.succ_unary
  postfixes _ := ih.succ_postfixes
  arguments _ := ih.succ_arguments
  primary _ := ih.succ_primary

end ExpressionsSettle

theorem expressionsSettle {n m : Nat} (h : n ≤ m) : ExpressionsSettle n m := by
  induction n generalizing m with
  | zero => exact .zero m
  | succ n ih =>
    obtain ⟨m, rfl⟩ := Nat.exists_eq_add_of_lt h
    exact (ih (Nat.le_add_right n m)).succ

/-! ### Statements -/

section Parts

variable {n m : Nat} {c : Cursor}

theorem settles_parameters (h : n ≤ m) (count : Nat) (hn : 16 * c.tokens.length + 1 ≤ n) :
    Settles c 1 (Rule.parameters n count) (Rule.parameters m count) := by
  induction n generalizing m c count with
  | zero => cases hn
  | succ n ih =>
    obtain ⟨m, rfl⟩ := Nat.exists_eq_add_of_lt h
    rw [Rule.parameters, Rule.parameters]
    refine .bind (.noteIfFull count _) fun _ d hd => .bind (.expectName _) fun parameter e he => ?_
    refine .accept (by simp) (fun k hk => ?_) ?_
    · exact .bind (ih (Nat.le_add_right n m) (count + 1) (by omega)) fun _ _ _ => .pure _
    · exact .pure _

theorem settles_optionalParameters (h : n ≤ m) (hn : 16 * c.tokens.length + 1 ≤ n) :
    Settles c 0 (Rule.optionalParameters n) (Rule.optionalParameters m) := by
  refine .test fun missing => ?_
  cases missing with
  | true => exact .pure _
  | false => exact (settles_parameters h 0 hn).weaken (Nat.zero_le 1)

theorem settles_expressionUnless (h : n ≤ m) (symbol : Symbol) (hn : 16 * c.tokens.length + 10 ≤ n) :
    Settles c 0 (Rule.expressionUnless symbol n) (Rule.expressionUnless symbol m) := by
  refine .test fun missing => ?_
  cases missing with
  | true => exact .pure _
  | false => exact .bind ((expressionsSettle h).expression c hn) fun _ _ _ => .pure _

theorem settles_initialValue (h : n ≤ m) (hn : 16 * c.tokens.length ≤ n) :
    Settles c 0 (Rule.initialValue n) (Rule.initialValue m) := by
  refine .accept (by simp) (fun d hd => ?_) ?_
  · exact .bind ((expressionsSettle h).expression d (by omega)) fun _ _ _ => .pure _
  · exact .pure _

theorem settles_variableDeclaration (h : n ≤ m) (hn : 16 * c.tokens.length ≤ n) :
    Settles c 0 (Rule.variableDeclaration n) (Rule.variableDeclaration m) := by
  rw [Rule.variableDeclaration_eq, Rule.variableDeclaration_eq]
  refine .bind (.expectName _) fun name d hd => ?_
  refine .bind (settles_initialValue h (by omega)) fun initial e he => ?_
  exact .bind (.expectSymbol _ _) fun _ _ _ => .pure _

theorem settles_expressionStatement (h : n ≤ m) (hn : 16 * c.tokens.length + 10 ≤ n) :
    Settles c 1 (Rule.expressionStatement n) (Rule.expressionStatement m) :=
  .bind ((expressionsSettle h).expression c hn) fun _ _ _ => .bind (.expectSymbol _ _) fun _ _ _ =>
    .pure _

theorem settles_printStatement (h : n ≤ m) (hn : 16 * c.tokens.length + 10 ≤ n) :
    Settles c 0 (Rule.printStatement n) (Rule.printStatement m) :=
  .bind ((expressionsSettle h).expression c hn) fun _ _ _ => .bind (.expectSymbol _ _) fun _ _ _ =>
    .pure _

theorem settles_returnStatement (h : n ≤ m) (line : Nat) (hn : 16 * c.tokens.length + 10 ≤ n) :
    Settles c 0 (Rule.returnStatement n line) (Rule.returnStatement m line) :=
  .bind (settles_expressionUnless h _ hn) fun _ _ _ => .bind (.expectSymbol _ _) fun _ _ _ => .pure _

theorem settles_condition (h : n ≤ m) (keyword : Keyword) (hn : 16 * c.tokens.length ≤ n) :
    Settles c 0 (Rule.condition keyword n) (Rule.condition keyword m) := by
  refine .bind (.expectSymbol _ _) fun _ d hd => ?_
  refine .bind ((expressionsSettle h).expression d (by omega)) fun value e he => ?_
  exact .bind (.expectSymbol _ _) fun _ _ _ => .pure _

theorem settles_forInitial (h : n ≤ m) (hn : 16 * c.tokens.length + 10 ≤ n) :
    Settles c 0 (Rule.forInitial n) (Rule.forInitial m) := by
  refine .accept (by simp) (fun _ _ => .pure _) (.accept (by simp) (fun d hd => ?_) ?_)
  · exact .bind (settles_variableDeclaration h (by omega)) fun _ _ _ => .pure _
  · exact .bind (settles_expressionStatement h hn) fun _ _ _ => .pure _

theorem settles_superclassClause : Settles c 0 Rule.superclassClause Rule.superclassClause := by
  refine .accept (by simp) (fun d hd => ?_) ?_
  · exact .bind (.expectName _) fun _ _ _ => .bind .freshId fun _ _ _ => .pure _
  · exact .pure _

theorem settles_bodyEnds : Settles c 0 Rule.bodyEnds Rule.bodyEnds := .peek (.pure _)

end Parts

/-- The rules for statements come to the same end at both depths, if the first one is large enough. -/
structure StatementsSettle (n m : Nat) : Prop where
  declaration : ∀ c : Cursor, 16 * c.tokens.length + 12 ≤ n →
    Settles c 1 (Rule.declaration n) (Rule.declaration m)
  classDeclaration : ∀ c : Cursor, 16 * c.tokens.length + 1 ≤ n →
    Settles c 0 (Rule.classDeclaration n) (Rule.classDeclaration m)
  methods : ∀ (c : Cursor) before, 16 * c.tokens.length + 2 ≤ n →
    Settles c 0 (Rule.methods n before) (Rule.methods m before)
  function : ∀ (c : Cursor) role, 16 * c.tokens.length + 1 ≤ n →
    Settles c 1 (Rule.function n role) (Rule.function m role)
  block : ∀ (c : Cursor) before, 16 * c.tokens.length + 13 ≤ n →
    Settles c 0 (Rule.block n before) (Rule.block m before)
  statement : ∀ c : Cursor, 16 * c.tokens.length + 11 ≤ n →
    Settles c 1 (Rule.statement n) (Rule.statement m)

namespace StatementsSettle

variable {n m : Nat} {c : Cursor}

theorem succ_declaration (ih : StatementsSettle n m) (h : n ≤ m)
    (hn : 16 * c.tokens.length + 12 ≤ n + 1) :
    Settles c 1 (Rule.declaration (n + 1)) (Rule.declaration (m + 1)) := by
  rw [Rule.declaration, Rule.declaration]
  refine .accept (by simp) (fun d hd => ?_) ?_
  · exact ih.classDeclaration d (by omega)
  refine .accept (by simp) (fun d hd => ?_) ?_
  · exact .bind (ih.function d _ (by omega)) fun _ _ _ => .pure _
  refine .accept (by simp) (fun d hd => ?_) ?_
  · exact settles_variableDeclaration h (by omega)
  · exact ih.statement c (by omega)

theorem succ_classDeclaration (ih : StatementsSettle n m) (hn : 16 * c.tokens.length + 1 ≤ n + 1) :
    Settles c 0 (Rule.classDeclaration (n + 1)) (Rule.classDeclaration (m + 1)) := by
  rw [Rule.classDeclaration_succ, Rule.classDeclaration_succ]
  refine .bind (.expectName _) fun name d hd => .bind settles_superclassClause fun superclass e he => ?_
  refine .bind (.expectSymbol _ _) fun _ k hk => .bind (ih.methods k [] (by omega)) fun methods _ _ => ?_
  exact .bind (.expectSymbol _ _) fun _ _ _ => .pure _

theorem succ_methods (ih : StatementsSettle n m) (before : List FunctionDef)
    (hn : 16 * c.tokens.length + 2 ≤ n + 1) :
    Settles c 0 (Rule.methods (n + 1) before) (Rule.methods (m + 1) before) := by
  rw [Rule.methods, Rule.methods]
  refine .bind settles_bodyEnds fun ends d hd => ?_
  cases ends with
  | true => exact .pure _
  | false => exact .bind (ih.function d _ (by omega)) fun f e he => ih.methods e _ (by omega)

theorem succ_function (ih : StatementsSettle n m) (h : n ≤ m) (role : FunctionRole)
    (hn : 16 * c.tokens.length + 1 ≤ n + 1) :
    Settles c 1 (Rule.function (n + 1) role) (Rule.function (m + 1) role) := by
  rw [Rule.function_succ, Rule.function_succ]
  refine .bind (.expectName _) fun name d hd => .bind (.expectSymbol _ _) fun _ e he => ?_
  refine .bind (settles_optionalParameters h (by omega)) fun params k hk => ?_
  refine .bind (.expectSymbol _ _) fun _ k' hk' => .bind (.expectSymbol _ _) fun _ k'' hk'' => ?_
  exact .bind (ih.block k'' [] (by omega)) fun _ _ _ => .pure _

theorem succ_block (ih : StatementsSettle n m) (before : List Stmt)
    (hn : 16 * c.tokens.length + 13 ≤ n + 1) :
    Settles c 0 (Rule.block (n + 1) before) (Rule.block (m + 1) before) := by
  rw [Rule.block, Rule.block]
  refine .bind settles_bodyEnds fun ends d hd => ?_
  cases ends with
  | true => exact .bind (.expectSymbol _ _) fun _ _ _ => .pure _
  | false => exact .bind (ih.declaration d (by omega)) fun s e he => ih.block e _ (by omega)

theorem succ_statement (ih : StatementsSettle n m) (h : n ≤ m)
    (hn : 16 * c.tokens.length + 11 ≤ n + 1) :
    Settles c 1 (Rule.statement (n + 1)) (Rule.statement (m + 1)) := by
  rw [Rule.statement, Rule.statement]
  apply Settles.peek
  have hadvance : c.current.kind ≠ .endOfSource → Settles c 1 Rule.advance Rule.advance := .advance
  generalize c.current.kind = kind at hadvance
  split
  · refine .bind (hadvance (by simp)) fun _ d hd => .bind (.expectSymbol _ _) fun _ e he => ?_
    refine .bind (settles_forInitial h (by omega)) fun initial k hk => ?_
    refine .bind (settles_expressionUnless h _ (by omega)) fun condition l hl => ?_
    refine .bind (.expectSymbol _ _) fun _ l' hl' => ?_
    refine .bind (settles_expressionUnless h _ (by omega)) fun increment o ho => ?_
    refine .bind (.expectSymbol _ _) fun _ o' ho' => ?_
    exact .bind (ih.statement o' (by omega)) fun _ _ _ => .pure _
  · refine .bind (hadvance (by simp)) fun _ d hd => ?_
    refine .bind (settles_condition h _ (by omega)) fun condition e he => ?_
    refine .bind (ih.statement e (by omega)) fun thenBranch k hk => ?_
    refine .accept (by simp) (fun l hl => ?_) ?_
    · exact .bind (ih.statement l (by omega)) fun _ _ _ => .pure _
    · exact .pure _
  · refine .bind (hadvance (by simp)) fun _ d hd => ?_
    refine .bind (settles_condition h _ (by omega)) fun condition e he => ?_
    exact .bind (ih.statement e (by omega)) fun _ _ _ => .pure _
  · exact .bind (hadvance (by simp)) fun _ d hd => settles_returnStatement h _ (by omega)
  · refine .bind (hadvance (by simp)) fun _ d hd => ?_
    exact .bind (ih.block d [] (by omega)) fun _ _ _ => .pure _
  · exact .bind (hadvance (by simp)) fun _ d hd => settles_printStatement h (by omega)
  · exact settles_expressionStatement h (by omega)

theorem zero (m : Nat) : StatementsSettle 0 m where
  declaration _ hn := nomatch hn
  classDeclaration _ hn := nomatch hn
  methods _ _ hn := nomatch hn
  function _ _ hn := nomatch hn
  block _ _ hn := nomatch hn
  statement _ hn := nomatch hn

theorem succ (ih : StatementsSettle n m) (h : n ≤ m) : StatementsSettle (n + 1) (m + 1) where
  declaration _ := ih.succ_declaration h
  classDeclaration _ := ih.succ_classDeclaration
  methods _ := ih.succ_methods
  function _ := ih.succ_function h
  block _ := ih.succ_block
  statement _ := ih.succ_statement h

end StatementsSettle

theorem statementsSettle {n m : Nat} (h : n ≤ m) : StatementsSettle n m := by
  induction n generalizing m with
  | zero => exact .zero m
  | succ n ih =>
    obtain ⟨m, rfl⟩ := Nat.exists_eq_add_of_lt h
    exact (ih (Nat.le_add_right n m)).succ (Nat.le_add_right n m)

end Grammar

/-! ### Programs -/

namespace Cursor

theorem declarations_of_atEnd {c : Cursor} (h : c.isAtEnd = true) (depth n : Nat) (before : List Stmt) :
    declarations depth n before c = (before.reverse, c) := by
  cases n with
  | zero => rfl
  | succ n => rw [declarations, if_pos h]

/-- What was read before only goes before what is read. -/
theorem declarations_before (depth n : Nat) (before : List Stmt) (c : Cursor) :
    declarations depth n before c =
      (before.reverse ++ (declarations depth n [] c).1, (declarations depth n [] c).2) := by
  induction n generalizing before c with
  | zero => simp only [declarations, List.reverse_nil, List.append_nil]
  | succ n ih =>
    rw [declarations, declarations]
    split
    · rw [List.reverse_nil, List.append_nil]
    · split
      · next s d _ =>
        rw [ih (s :: before) d, ih [s] d, List.reverse_cons, List.append_assoc]
        rfl
      · exact ih before _
      · rw [List.reverse_nil, List.append_nil]

/-- Reading starts again at the end, or with fewer tokens. -/
theorem atEnd_or_lt_synchronized {c d : Cursor} (h : d.tokens.length ≤ c.tokens.length) :
    d.synchronized.isAtEnd = true ∨ d.synchronized.tokens.length + 1 ≤ c.tokens.length := by
  cases hend : d.isAtEnd with
  | true =>
    have hsame : d.synchronized = d := if_pos hend
    exact .inl ((congrArg isAtEnd hsame).trans hend)
  | false => exact .inr (Nat.le_trans (length_synchronized hend) h)

theorem length_synchronized_le (c : Cursor) : c.synchronized.tokens.length ≤ c.tokens.length := by
  cases hend : c.isAtEnd with
  | true =>
    have hsame : c.synchronized = c := if_pos hend
    exact Nat.le_of_eq (congrArg (·.tokens.length) hsame)
  | false => exact Nat.le_of_succ_le (length_synchronized hend)

/-- Declarations are read in the same way at every depth and with every bound that are large enough. A
declaration passes a token, and so does a fault when reading starts again after it, unless the end has
come. -/
theorem declarations_settle {c : Cursor} {depth depth' n n' : Nat}
    (hdepth : 16 * c.tokens.length + 12 ≤ depth) (hle : depth ≤ depth')
    (hn : c.isAtEnd = true ∨ c.tokens.length ≤ n) (hn' : c.isAtEnd = true ∨ c.tokens.length ≤ n')
    (before : List Stmt) : declarations depth' n' before c = declarations depth n before c := by
  induction n generalizing n' c before with
  | zero =>
    have hend : c.isAtEnd = true := by
      cases hend : c.isAtEnd with
      | true => rfl
      | false =>
        have htail := length_tail_of_not_atEnd hend
        have hlength := hn.resolve_left (Bool.eq_false_iff.1 hend)
        omega
    rw [declarations_of_atEnd hend, declarations_of_atEnd hend]
  | succ n ih =>
    cases hend : c.isAtEnd with
    | true => rw [declarations_of_atEnd hend, declarations_of_atEnd hend]
    | false =>
      rw [hend] at hn hn'
      have htail := length_tail_of_not_atEnd hend
      have hlength := hn.resolve_left Bool.false_ne_true
      have hlength' := hn'.resolve_left Bool.false_ne_true
      obtain ⟨n', rfl⟩ : ∃ k, n' = k + 1 := ⟨n' - 1, by omega⟩
      rw [declarations, declarations, hend, if_neg Bool.false_ne_true, if_neg Bool.false_ne_true]
      rcases ((Grammar.statementsSettle hle).declaration c hdepth).cases with
        ⟨s, d, hx, hy, hd⟩ | ⟨fault, d, hx, hy, hd⟩
      · rw [hx, hy]
        exact ih (by omega) (.inr (by omega)) (.inr (by omega)) (s :: before)
      · rw [hx, hy]
        let e : Cursor := { d with faults := fault :: d.faults }
        have hshort : e.synchronized.tokens.length ≤ d.tokens.length := length_synchronized_le e
        have hless := atEnd_or_lt_synchronized (c := c) (d := e) hd
        exact ih (Nat.le_trans (by omega) hdepth) (hless.imp_right fun _ => by omega)
          (hless.imp_right fun _ => by omega) before

end Cursor

end Lox
