import Lox.Proofs.Grammar.StatementSound

/-!
# Courses of reading

A rule of the grammar is a function of the cursor, and what it does on the way is not to be seen in its
outcome. Its course lists the cursors at which it looks at the token at hand, in order. A course is made of
the steps that rules are made of, so whatever is true of the steps is true of every course, and every
outcome of every rule of the grammar is reached by a course.
-/

namespace Lox

open Procedure

namespace Rule

variable {α β : Type}

/-- From the cursor `c` the rule comes to the outcome, looking at the token of each cursor of the path on
its way. -/
inductive Course : {α : Type} → Rule α → Cursor → List Cursor → Outcome Cursor Diagnostic α → Prop
  | pure {α : Type} (a : α) (c : Cursor) : Course (Pure.pure a) c [] (.ok a c)
  | fail {α : Type} (fault : Diagnostic) (c : Cursor) :
    Course (Procedure.fail fault : Rule α) c [] (.error fault c)
  | look {α : Type} (f : Cursor → α) (c : Cursor) : Course (Procedure.read f) c [c] (.ok (f c) c)
  | advance (c : Cursor) : Course Rule.advance c [c] (.ok () c.advanced)
  | freshId (c : Cursor) :
    Course Rule.freshId c [] (.ok c.nextId { c with nextId := c.nextId + 1 })
  | note (fault : SyntaxFault) (line : Nat) (c : Cursor) :
    Course (Rule.note fault line) c [] (.ok () (c.noted fault line))
  | bind {α β : Type} {x : Rule α} {f : α → Rule β} {c d : Cursor} {a : α} {path path' : List Cursor}
    {o : Outcome Cursor Diagnostic β} (hx : Course x c path (.ok a d)) (hf : Course (f a) d path' o) :
    Course (x >>= f) c (path ++ path') o
  | stop {α β : Type} {x : Rule α} {f : α → Rule β} {c d : Cursor} {fault : Diagnostic}
    {path : List Cursor} (hx : Course x c path (.error fault d)) :
    Course (x >>= f) c path (.error fault d)

/-- A course leads to what the rule gives. -/
theorem Course.apply_eq {x : Rule α} {c : Cursor} {path : List Cursor}
    {o : Outcome Cursor Diagnostic α} (h : Course x c path o) : x c = o := by
  induction h with
  | bind _ _ hx hf => rw [bind_apply_of_ok hx, hf]
  | stop _ hx => rw [bind_apply_of_error hx]
  | _ => rfl

/-- Whenever the rule comes to an end, it does so by a course. -/
def Stepwise (x : Rule α) : Prop := ∀ c, x c ≠ .exhausted → ∃ path, Course x c path (x c)

namespace Stepwise

variable {x : Rule α} {f : α → Rule β}

theorem pure (a : α) : Stepwise (Pure.pure a) := fun c _ => ⟨[], .pure a c⟩

theorem fail (fault : Diagnostic) : Stepwise (Procedure.fail fault : Rule α) :=
  fun c _ => ⟨[], .fail fault c⟩

theorem exhaust : Stepwise (Procedure.exhaust : Rule α) := fun _ h => absurd rfl h

theorem look (f : Cursor → α) : Stepwise (Procedure.read f) := fun c _ => ⟨[c], .look f c⟩

theorem advance : Stepwise Rule.advance := fun c _ => ⟨[c], .advance c⟩

theorem freshId : Stepwise Rule.freshId := fun c _ => ⟨[], .freshId c⟩

theorem note (fault : SyntaxFault) (line : Nat) : Stepwise (Rule.note fault line) :=
  fun c _ => ⟨[], .note fault line c⟩

/-- Two rules in a row. -/
theorem bind (hx : Stepwise x) (hf : ∀ a, Stepwise (f a)) : Stepwise (x >>= f) := by
  intro c hend
  have hx := hx c
  rw [bind_apply] at hend ⊢
  cases ho : x c with
  | exhausted => simp [ho] at hend
  | error fault d =>
    rw [ho] at hx
    obtain ⟨path, hpath⟩ := hx nofun
    exact ⟨path, .stop hpath⟩
  | ok a d =>
    simp only [ho] at hx hend ⊢
    obtain ⟨path, hpath⟩ := hx nofun
    obtain ⟨path', hpath'⟩ := hf a d hend
    exact ⟨path ++ path', .bind hpath hpath'⟩

theorem map (hx : Stepwise x) (f : α → β) : Stepwise (f <$> x) := by
  rw [← bind_pure_comp]
  exact hx.bind fun _ => .pure _

theorem peek : Stepwise Rule.peek := .look _

theorem sees (kind : Token.Kind) : Stepwise (Rule.sees kind) := .look _

theorem accept? (kind : Token.Kind) : Stepwise (Rule.accept? kind) := by
  refine .bind .peek fun token => ?_
  split
  · exact .bind .advance fun _ => .pure _
  · exact .pure _

theorem accept (kind : Token.Kind) : Stepwise (Rule.accept kind) := .bind (.accept? kind) fun _ => .pure _

theorem expect (kind : Token.Kind) (fault : SyntaxFault) : Stepwise (Rule.expect kind fault) := by
  refine .bind .peek fun token => ?_
  split
  · exact .bind .advance fun _ => .pure _
  · exact .fail _

theorem expectSymbol (symbol : Symbol) (place : Place) : Stepwise (Rule.expectSymbol symbol place) :=
  .expect _ _

theorem expectName (role : NameRole) : Stepwise (Rule.expectName role) :=
  .bind (.expect _ _) fun _ => .pure _

theorem noteIfFull (count : Nat) (fault : SyntaxFault) : Stepwise (Rule.noteIfFull count fault) := by
  unfold Rule.noteIfFull
  split
  · exact .bind .peek fun _ => .note _ _
  · exact .pure _

/-- A test with a rule for each answer. -/
theorem test {t : Rule Bool} {x y : Rule β} (ht : Stepwise t) (hx : Stepwise x) (hy : Stepwise y) :
    Stepwise (t >>= fun b => if b = true then x else y) := by
  refine .bind ht fun b => ?_
  cases b with
  | true => exact hx
  | false => exact hy

end Stepwise

end Rule

namespace Grammar

open Rule

/-! ### Expressions -/

/-- The rules for expressions have courses. -/
structure ExpressionsStepwise (n : Nat) : Prop where
  expression : Stepwise (Rule.expression n)
  operators : ∀ levels, Stepwise (Rule.operators n levels)
  moreOperands : ∀ level tighter left, Stepwise (Rule.moreOperands n level tighter left)
  unary : Stepwise (Rule.unary n)
  postfixes : ∀ e, Stepwise (Rule.postfixes n e)
  arguments : ∀ count, Stepwise (Rule.arguments n count)
  primary : Stepwise (Rule.primary n)

namespace ExpressionsStepwise

variable {n : Nat}

theorem assignTo (target value : Expr) (line : Nat) : Stepwise (Rule.assignTo target value line) := by
  cases target with
  | reference r => exact .bind .freshId fun _ => .pure _
  | get object name => exact .pure _
  | _ => exact .bind (.note _ _) fun _ => .pure _

theorem succ_expression (ih : ExpressionsStepwise n) : Stepwise (Rule.expression (n + 1)) := by
  rw [Rule.expression]
  refine .bind (ih.operators _) fun target => .bind (.accept? _) fun equal => ?_
  cases equal with
  | some equal => exact .bind ih.expression fun value => assignTo target value equal.line
  | none => exact .pure _

theorem succ_operators (ih : ExpressionsStepwise n) (levels : List Cursor.Level) :
    Stepwise (Rule.operators (n + 1) levels) := by
  cases levels with
  | nil => exact ih.unary
  | cons level tighter => exact .bind (ih.operators tighter) fun left => ih.moreOperands _ _ left

theorem succ_moreOperands (ih : ExpressionsStepwise n) (level : Cursor.Level)
    (tighter : List Cursor.Level) (left : Expr) :
    Stepwise (Rule.moreOperands (n + 1) level tighter left) := by
  rw [Rule.moreOperands]
  refine .bind .peek fun token => ?_
  split
  · exact .bind .advance fun _ => .bind (ih.operators tighter) fun _ => ih.moreOperands _ _ _
  · exact .pure _

theorem succ_unary (ih : ExpressionsStepwise n) : Stepwise (Rule.unary (n + 1)) := by
  rw [Rule.unary]
  refine .bind .peek fun token => ?_
  split
  · exact .bind .advance fun _ => .bind ih.unary fun _ => .pure _
  · exact .bind ih.primary fun callee => ih.postfixes callee

theorem optionalArguments (ih : ExpressionsStepwise n) : Stepwise (Rule.optionalArguments n) :=
  .test (.sees _) (.pure _) (ih.arguments 0)

theorem succ_postfixes (ih : ExpressionsStepwise n) (e : Expr) :
    Stepwise (Rule.postfixes (n + 1) e) := by
  rw [Rule.postfixes_succ]
  refine .test (.accept _) ?_ (.test (.accept _) ?_ (.pure _))
  · exact .bind ih.optionalArguments fun _ => .bind (.expectSymbol _ _) fun _ => ih.postfixes _
  · exact .bind (.expectName _) fun _ => ih.postfixes _

theorem succ_arguments (ih : ExpressionsStepwise n) (count : Nat) :
    Stepwise (Rule.arguments (n + 1) count) := by
  rw [Rule.arguments]
  refine .bind (.noteIfFull _ _) fun _ => .bind ih.expression fun _ => .test (.accept _) ?_ (.pure _)
  exact .bind (ih.arguments _) fun _ => .pure _

theorem succ_primary (ih : ExpressionsStepwise n) : Stepwise (Rule.primary (n + 1)) := by
  rw [Rule.primary]
  refine .bind .peek fun token => ?_
  split
  case h_6 | h_7 => exact .bind .advance fun _ => .bind .freshId fun _ => .pure _
  case h_8 =>
    exact .bind .advance fun _ => .bind (.expectSymbol _ _) fun _ => .bind (.expectName _) fun _ =>
      .bind .freshId fun _ => .pure _
  case h_9 =>
    exact .bind .advance fun _ => .bind ih.expression fun _ => .bind (.expectSymbol _ _) fun _ =>
      .pure _
  case h_10 => exact .fail _
  all_goals exact .bind .advance fun _ => .pure _

theorem zero : ExpressionsStepwise 0 where
  expression := .exhaust
  operators _ := .exhaust
  moreOperands _ _ _ := .exhaust
  unary := .exhaust
  postfixes _ := .exhaust
  arguments _ := .exhaust
  primary := .exhaust

theorem succ (ih : ExpressionsStepwise n) : ExpressionsStepwise (n + 1) where
  expression := ih.succ_expression
  operators := ih.succ_operators
  moreOperands := ih.succ_moreOperands
  unary := ih.succ_unary
  postfixes := ih.succ_postfixes
  arguments := ih.succ_arguments
  primary := ih.succ_primary

end ExpressionsStepwise

theorem expressionsStepwise (n : Nat) : ExpressionsStepwise n := by
  induction n with
  | zero => exact .zero
  | succ n ih => exact ih.succ

/-! ### Statements -/

section Parts

variable (n : Nat)

theorem stepwise_expression : Stepwise (Rule.expression n) := (expressionsStepwise n).expression

theorem stepwise_parameters (count : Nat) : Stepwise (Rule.parameters n count) := by
  induction n generalizing count with
  | zero => exact .exhaust
  | succ n ih =>
    rw [Rule.parameters]
    refine .bind (.noteIfFull _ _) fun _ => .bind (.expectName _) fun _ => .test (.accept _) ?_ (.pure _)
    exact .bind (ih _) fun _ => .pure _

theorem stepwise_optionalParameters : Stepwise (Rule.optionalParameters n) :=
  .test (.sees _) (.pure _) (stepwise_parameters n 0)

theorem stepwise_expressionUnless (symbol : Symbol) : Stepwise (Rule.expressionUnless symbol n) :=
  .test (.sees _) (.pure _) (.bind (stepwise_expression n) fun _ => .pure _)

theorem stepwise_initialValue : Stepwise (Rule.initialValue n) :=
  .test (.accept _) (.map (stepwise_expression n) _) (.pure _)

theorem stepwise_variableDeclaration : Stepwise (Rule.variableDeclaration n) := by
  rw [Rule.variableDeclaration_eq]
  exact .bind (.expectName _) fun _ => .bind (stepwise_initialValue n) fun _ =>
    .bind (.expectSymbol _ _) fun _ => .pure _

theorem stepwise_expressionStatement : Stepwise (Rule.expressionStatement n) :=
  .bind (stepwise_expression n) fun _ => .bind (.expectSymbol _ _) fun _ => .pure _

theorem stepwise_printStatement : Stepwise (Rule.printStatement n) :=
  .bind (stepwise_expression n) fun _ => .bind (.expectSymbol _ _) fun _ => .pure _

theorem stepwise_returnStatement (line : Nat) : Stepwise (Rule.returnStatement n line) :=
  .bind (stepwise_expressionUnless n _) fun _ => .bind (.expectSymbol _ _) fun _ => .pure _

theorem stepwise_condition (keyword : Keyword) : Stepwise (Rule.condition keyword n) :=
  .bind (.expectSymbol _ _) fun _ => .bind (stepwise_expression n) fun _ =>
    .bind (.expectSymbol _ _) fun _ => .pure _

theorem stepwise_forInitial : Stepwise (Rule.forInitial n) :=
  .test (.accept _) (.pure _) (.test (.accept _)
    (.bind (stepwise_variableDeclaration n) fun _ => .pure _)
    (.bind (stepwise_expressionStatement n) fun _ => .pure _))

theorem stepwise_superclassClause : Stepwise Rule.superclassClause :=
  .test (.accept _) (.bind (.expectName _) fun _ => .bind .freshId fun _ => .pure _) (.pure _)

theorem stepwise_bodyEnds : Stepwise Rule.bodyEnds := .bind .peek fun _ => .pure _

end Parts

/-- The rules for statements have courses. -/
structure StatementsStepwise (n : Nat) : Prop where
  declaration : Stepwise (Rule.declaration n)
  classDeclaration : Stepwise (Rule.classDeclaration n)
  methods : ∀ before, Stepwise (Rule.methods n before)
  function : ∀ role, Stepwise (Rule.function n role)
  block : ∀ before, Stepwise (Rule.block n before)
  statement : Stepwise (Rule.statement n)

namespace StatementsStepwise

variable {n : Nat}

theorem succ_declaration (ih : StatementsStepwise n) : Stepwise (Rule.declaration (n + 1)) := by
  rw [Rule.declaration]
  refine .test (.accept _) ih.classDeclaration (.test (.accept _) ?_ ?_)
  · exact .bind (ih.function _) fun _ => .pure _
  · exact .test (.accept _) (stepwise_variableDeclaration n) ih.statement

theorem succ_classDeclaration (ih : StatementsStepwise n) :
    Stepwise (Rule.classDeclaration (n + 1)) := by
  rw [Rule.classDeclaration_succ]
  refine .bind (.expectName _) fun _ => .bind stepwise_superclassClause fun _ => ?_
  refine .bind (.expectSymbol _ _) fun _ => .bind (ih.methods []) fun _ => ?_
  exact .bind (.expectSymbol _ _) fun _ => .pure _

theorem succ_methods (ih : StatementsStepwise n) (before : List FunctionDef) :
    Stepwise (Rule.methods (n + 1) before) := by
  rw [Rule.methods]
  exact .test stepwise_bodyEnds (.pure _) (.bind (ih.function _) fun _ => ih.methods _)

theorem succ_function (ih : StatementsStepwise n) (role : FunctionRole) :
    Stepwise (Rule.function (n + 1) role) := by
  rw [Rule.function_succ]
  refine .bind (.expectName _) fun _ => .bind (.expectSymbol _ _) fun _ => ?_
  refine .bind (stepwise_optionalParameters n) fun _ => .bind (.expectSymbol _ _) fun _ => ?_
  exact .bind (.expectSymbol _ _) fun _ => .bind (ih.block []) fun _ => .pure _

theorem succ_block (ih : StatementsStepwise n) (before : List Stmt) :
    Stepwise (Rule.block (n + 1) before) := by
  rw [Rule.block]
  exact .test stepwise_bodyEnds (.bind (.expectSymbol _ _) fun _ => .pure _)
    (.bind ih.declaration fun _ => ih.block _)

theorem succ_statement (ih : StatementsStepwise n) : Stepwise (Rule.statement (n + 1)) := by
  rw [Rule.statement]
  refine .bind .peek fun token => ?_
  split
  · refine .bind .advance fun _ => .bind (.expectSymbol _ _) fun _ => ?_
    refine .bind (stepwise_forInitial n) fun _ => .bind (stepwise_expressionUnless n _) fun _ => ?_
    refine .bind (.expectSymbol _ _) fun _ => .bind (stepwise_expressionUnless n _) fun _ => ?_
    exact .bind (.expectSymbol _ _) fun _ => .bind ih.statement fun _ => .pure _
  · refine .bind .advance fun _ => .bind (stepwise_condition n _) fun _ => .bind ih.statement fun _ => ?_
    exact .test (.accept _) (.bind ih.statement fun _ => .pure _) (.pure _)
  · exact .bind .advance fun _ => .bind (stepwise_condition n _) fun _ => .bind ih.statement fun _ =>
      .pure _
  · exact .bind .advance fun _ => stepwise_returnStatement n _
  · exact .bind .advance fun _ => .bind (ih.block []) fun _ => .pure _
  · exact .bind .advance fun _ => stepwise_printStatement n
  · exact stepwise_expressionStatement n

theorem zero : StatementsStepwise 0 where
  declaration := .exhaust
  classDeclaration := .exhaust
  methods _ := .exhaust
  function _ := .exhaust
  block _ := .exhaust
  statement := .exhaust

theorem succ (ih : StatementsStepwise n) : StatementsStepwise (n + 1) where
  declaration := ih.succ_declaration
  classDeclaration := ih.succ_classDeclaration
  methods := ih.succ_methods
  function := ih.succ_function
  block := ih.succ_block
  statement := ih.succ_statement

end StatementsStepwise

theorem statementsStepwise (n : Nat) : StatementsStepwise n := by
  induction n with
  | zero => exact .zero
  | succ n ih => exact ih.succ

end Grammar

end Lox
