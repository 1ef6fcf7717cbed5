import Lox.Proofs.Grammar.Acceptance
import Lox.Proofs.Grammar.ExpressionSound
import Lox.Proofs.Syntax.Likeness

/-!
# Phrases of the grammar are read

Every phrase is consumed by its rule, if the token after it cannot go on with it, and the tree that
is read is that of the phrase up to the numbers of nodes.

## Implementation notes

Operations and calls are loops: what they have read so far is the left part of a longer phrase. So
what is said of their phrases leaves open what follows: if the rest of the loop accepts some tokens
with the tree of the phrase on its left, then the whole rule accepts the phrase and those tokens.

The bounds on depths say that sixteen calls for each token are enough.
-/

namespace Lox

namespace Grammar

open Rule

/-- The kinds of tokens that begin a primary expression. -/
def beginsPrimary : Token.Kind → Bool
  | .number _ | .string _ | .identifier | .symbol .leftParen => true
  | .keyword k => k ∈ [Keyword.kwTrue, .kwFalse, .kwNil, .kwThis, .kwSuper]
  | _ => false

/-- The kinds of tokens that begin an expression. -/
def beginsExpression (kind : Token.Kind) : Bool :=
  beginsPrimary kind || kind = .symbol .bang || kind = .symbol .minus

/-- The kinds of tokens that begin a phrase of each form. -/
def Form.begins : Form → Token.Kind → Bool
  | .call | .primary => beginsPrimary
  | _ => beginsExpression

theorem Form.begins_expression {s : Form} {kind : Token.Kind} (h : s.begins kind) :
    beginsExpression kind := by
  cases s <;> simp_all [Form.begins, beginsExpression]

/-- Every phrase but the empty list has a first token, of a kind that begins its form. -/
theorem Phrase.first {s : Form} {ts : List Token} {t : s.Tree} (h : Phrase s ts t)
    (hs : s = .arguments → ts ≠ []) :
    ∃ first rest, ts = first :: rest ∧ s.begins first.kind := by
  induction h with
  | assignName id hn =>
    exact ⟨_, _, rfl, by simp [Form.begins, beginsExpression, hn, beginsPrimary]⟩
  | assignProperty ho hd hn he hv ih =>
    obtain ⟨first, rest, rfl, h⟩ := ih nofun
    exact ⟨first, _, rfl, Form.begins_expression h⟩
  | operation h ih => exact ih nofun
  | join hl ho hr ih =>
    obtain ⟨first, rest, rfl, h⟩ := ih nofun
    exact ⟨first, _, rfl, h⟩
  | tighter h ih => exact ih nofun
  | not ho => exact ⟨_, _, rfl, by simp [Form.begins, beginsExpression, ho]⟩
  | negate ho => exact ⟨_, _, rfl, by simp [Form.begins, beginsExpression, ho]⟩
  | call h ih =>
    obtain ⟨first, rest, rfl, hf⟩ := ih nofun
    exact ⟨first, _, rfl, Form.begins_expression hf⟩
  | invoke hc ho ha hm hr ih =>
    obtain ⟨first, rest, rfl, h⟩ := ih nofun
    exact ⟨first, _, rfl, h⟩
  | property ho hd hn ih =>
    obtain ⟨first, rest, rfl, h⟩ := ih nofun
    exact ⟨first, _, rfl, h⟩
  | primary h ih => exact ih nofun
  | grouping ho => exact ⟨_, _, rfl, by simp [Form.begins, beginsPrimary, ho]⟩
  | super id ht => exact ⟨_, _, rfl, by simp [Form.begins, beginsPrimary, ht]⟩
  | noArguments => exact absurd rfl (hs rfl)
  | oneArgument h ih => exact ih nofun
  | moreArguments h hc hes hne ih =>
    obtain ⟨first, rest, rfl, hf⟩ := ih nofun
    exact ⟨first, _, rfl, hf⟩
  | number h | string h | true h | false h | nil h | this _ h | name _ h =>
    exact ⟨_, _, rfl, by rw [h]; rfl⟩

theorem Phrase.tokens_ne_nil {s : Form} {ts : List Token} {t : s.Tree} (h : Phrase s ts t)
    (hs : s ≠ .arguments) : ts ≠ [] := by
  obtain ⟨first, rest, rfl, -⟩ := h.first fun he => absurd he hs
  simp

theorem Phrase.eq_nil {ts : List Token} {es : List Expr} (h : Phrase .arguments ts es)
    (ht : ts = []) : es = [] := by
  cases h with
  | noArguments => rfl
  | oneArgument h =>
    obtain ⟨first, rest, rfl, -⟩ := h.first nofun
    cases ht
  | moreArguments h =>
    obtain ⟨first, rest, rfl, -⟩ := h.first nofun
    cases ht

theorem Phrase.ne_nil {ts : List Token} {es : List Expr} (h : Phrase .arguments ts es)
    (ht : ts ≠ []) : es ≠ [] := by
  cases h with
  | noArguments => exact absurd rfl ht
  | oneArgument => simp
  | moreArguments => simp

/-- A token of this kind cannot go on with an operand. -/
structure Stops (o : Operand) (kind : Token.Kind) : Prop where
  level : ∀ level ∈ o.levels, level.lookup kind = none
  call : kind ≠ .symbol .leftParen
  property : kind ≠ .symbol .dot

theorem Stops.tighter {p : Precedence} {kind : Token.Kind} (h : Stops (.operation p) kind) :
    Stops p.tighter kind :=
  ⟨fun level hl => h.level level (by rw [levels_operation]; exact .tail _ hl), h.call, h.property⟩

theorem Stops.head {p : Precedence} {kind : Token.Kind} (h : Stops (.operation p) kind) :
    p.level.lookup kind = none :=
  h.level _ (by rw [levels_operation]; exact .head _)

/-- An operator does not go on with a tighter operand. -/
theorem Precedence.Has.stops {p : Precedence} {kind : Token.Kind} {connective : Connective}
    (h : p.Has kind connective) : Stops p.tighter kind := by
  cases h <;> exact ⟨by decide, by decide, by decide⟩

theorem Precedence.Has.lookup {p : Precedence} {kind : Token.Kind} {connective : Connective}
    (h : p.Has kind connective) : p.level.lookup kind = some connective := by
  cases h <;> decide

/-- The kinds of tokens that end an expression. -/
def closes (kind : Token.Kind) : Bool :=
  kind = .symbol .equal || kind = .symbol .rightParen || kind = .symbol .comma ||
    kind = .symbol .semicolon

theorem stops_of_closing {o : Operand} {kind : Token.Kind} (h : closes kind) : Stops o kind := by
  have hk : kind = .symbol .equal ∨ kind = .symbol .rightParen ∨ kind = .symbol .comma ∨
      kind = .symbol .semicolon := by
    simpa [closes, or_assoc] using h
  rcases hk with rfl | rfl | rfl | rfl <;>
    refine ⟨?_, by decide, by decide⟩ <;> cases o with
    | unary => exact nofun
    | operation p => cases p <;> decide

/-- The same expression up to the numbers of nodes. -/
abbrev Same (e : Expr) : Expr → Prop := fun read => read.Alike .upToNodes e

theorem Same.join {left right a b : Expr} {connective : Connective} {line : Nat}
    (hl : Same left a) (hr : Same right b) :
    Same (connective.join line left right) (connective.join line a b) := by
  cases connective
  · exact .binary hl hr rfl
  · exact .logical hl hr

theorem identifier_alike (name : Identifier) : name.Alike .upToNodes name := ⟨rfl, rfl⟩

/-- How much less than sixteen calls for each token are enough for an operand. -/
def Operand.slack : Operand → Nat
  | .operation .or => 7
  | .operation .and => 8
  | .operation .equality => 9
  | .operation .comparison => 10
  | .operation .term => 11
  | .operation .factor => 12
  | .unary => 13

theorem slack_tighter (p : Precedence) : p.tighter.slack = (Operand.operation p).slack + 1 := by
  cases p <;> rfl

theorem slack_le (o : Operand) : o.slack ≤ 13 := by
  cases o with
  | unary => exact Nat.le_refl _
  | operation p => cases p <;> decide

/-- What the rules accept of each form. -/
def Form.Accepted : (s : Form) → List Token → s.Tree → Prop
  | .expression, ts, e => ∀ n rest, 16 * ts.length ≤ n + 6 →
      Stops (.operation .or) (Cursor.kindOf rest) → Cursor.kindOf rest ≠ .symbol .equal →
      Accepts (Rule.expression n) ts rest (Same e)
  | .operand .unary, ts, e => ∀ n rest, 16 * ts.length ≤ n + 14 →
      Stops .unary (Cursor.kindOf rest) → Accepts (Rule.unary n) ts rest (Same e)
  | .operand (.operation p), ts, e => ∀ n us rest Q,
      16 * ts.length ≤ n + (Operand.operation p).slack →
      Stops p.tighter (Cursor.kindOf (us ++ rest)) →
      (∀ m read, n ≤ m + ts.length → Same e read →
        Accepts (Rule.moreOperands m p.level p.tighter.levels read) us rest Q) →
      Accepts (Rule.operators n (Operand.operation p).levels) (ts ++ us) rest Q
  | .call, ts, e => ∀ n us rest Q, 16 * ts.length ≤ n + 15 →
      (∀ m read, n + 1 ≤ m + ts.length → Same e read →
        Accepts (Rule.postfixes m read) us rest Q) →
      Accepts (do let callee ← Rule.primary n; Rule.postfixes n callee) (ts ++ us) rest Q
  | .primary, ts, e => ∀ n rest, 16 * ts.length ≤ n + 15 →
      Accepts (Rule.primary n) ts rest (Same e)
  | .arguments, ts, es => es ≠ [] → ∀ n count rest, 16 * ts.length ≤ n + 5 →
      count + es.length ≤ maxListLength → Cursor.kindOf rest = .symbol .rightParen →
      Accepts (Rule.arguments n count) ts rest fun read =>
        List.Forall₂ (Expr.Alike .upToNodes) read es

theorem unaryOperator?_of_begins {kind : Token.Kind} (h : beginsPrimary kind) :
    Cursor.unaryOperator? kind = none := by
  unfold Cursor.unaryOperator?
  split
  · exact absurd h (by decide)
  · exact absurd h (by decide)
  · rfl

namespace Form.Accepted

variable {n : Nat} {ts us rest : List Token} {e : Expr}

/-- An operand with nothing after it that goes on with it. -/
theorem full {o : Operand} (h : Form.Accepted (.operand o) ts e) (hne : ts ≠ [])
    (hn : 16 * ts.length ≤ n + o.slack) (hr : Stops o (Cursor.kindOf rest)) :
    Accepts (Rule.operators n o.levels) ts rest (Same e) := by
  have hlen : 0 < ts.length := List.length_pos_of_ne_nil hne
  cases o with
  | unary =>
    obtain ⟨n, rfl⟩ : ∃ m, n = m + 1 := ⟨n - 1, by simp only [Operand.slack] at hn; omega⟩
    exact h n rest (by simp only [Operand.slack] at hn; omega) hr
  | operation p =>
    have hs := slack_le (.operation p)
    rw [← ts.append_nil]
    refine h n [] rest _ hn hr.tighter fun m read hm hread => ?_
    obtain ⟨m, rfl⟩ : ∃ k, m = k + 1 := ⟨m - 1, by omega⟩
    rw [Rule.moreOperands]
    apply Accepts.peek_current
    have hl : p.level.lookup (([] ++ rest).headD (.atEnd 1)).kind = none := hr.head
    rw [hl]
    exact Accepts.pure hread

/-- A tighter operand begins an operation. -/
theorem tighter {p : Precedence} (h : Form.Accepted (.operand p.tighter) ts e) (hne : ts ≠ []) :
    Form.Accepted (.operand (.operation p)) ts e := by
  intro n us rest Q hn hr hQ
  have hlen : 0 < ts.length := List.length_pos_of_ne_nil hne
  have hs := slack_tighter p
  have hb := slack_le p.tighter
  obtain ⟨n, rfl⟩ : ∃ m, n = m + 1 := ⟨n - 1, by omega⟩
  rw [levels_operation, Rule.operators]
  exact Accepts.bind (h.full hne (by omega) hr) fun read hread => hQ n read (by omega) hread

theorem join {p : Precedence} {op : Token} {connective : Connective} {left right : Expr}
    (hl : Form.Accepted (.operand (.operation p)) ts left) (ho : p.Has op.kind connective)
    (hr : Form.Accepted (.operand p.tighter) us right) (hne : us ≠ []) :
    Form.Accepted (.operand (.operation p)) (ts ++ op :: us)
      (connective.join op.line left right) := by
  intro n vs rest Q hn hstop hQ
  simp only [List.length_append, List.length_cons] at hn hQ
  have hs := slack_tighter p
  have hb := slack_le p.tighter
  rw [List.append_assoc, List.cons_append]
  refine hl n _ rest Q (by omega) ho.stops fun m read hm hread => ?_
  obtain ⟨m, rfl⟩ : ∃ k, m = k + 1 := ⟨m - 1, by omega⟩
  rw [Rule.moreOperands]
  apply Accepts.peek
  rw [ho.lookup]
  refine Accepts.cons (Accepts.advance ho.ne_endOfSource) fun _ _ => ?_
  refine Accepts.bind (hr.full hne (by omega) hstop) fun read' hread' => ?_
  exact hQ m _ (by omega) (hread.join hread')

theorem sign {op : Token} {operator : UnaryOperator}
    (ho : Cursor.unaryOperator? op.kind = some operator)
    (h : Form.Accepted (.operand .unary) ts e) :
    Form.Accepted (.operand .unary) (op :: ts) (.unary operator e op.line) := by
  intro n rest hn hr
  rw [List.length_cons] at hn
  obtain ⟨n, rfl⟩ : ∃ k, n = k + 1 := ⟨n - 1, by omega⟩
  have hend : op.kind ≠ .endOfSource := by
    intro hk
    simp [hk, Cursor.unaryOperator?] at ho
  rw [Rule.unary]
  apply Accepts.peek
  rw [ho]
  refine Accepts.cons (Accepts.advance hend) fun _ _ => ?_
  exact Accepts.last (h n rest (by omega) hr) fun read hread => Accepts.pure (.unary hread rfl)

/-- A call on its own is an operand. -/
theorem unary (h : Form.Accepted .call ts e) (hf : ∃ t us, ts = t :: us ∧ beginsPrimary t.kind) :
    Form.Accepted (.operand .unary) ts e := by
  intro n rest hn hr
  obtain ⟨t, us, rfl, ht⟩ := hf
  rw [List.length_cons] at hn
  obtain ⟨n, rfl⟩ : ∃ k, n = k + 1 := ⟨n - 1, by omega⟩
  rw [Rule.unary]
  apply Accepts.peek
  rw [unaryOperator?_of_begins ht]
  rw [← (t :: us).append_nil]
  refine h n [] rest _ (by rw [List.length_cons]; omega) fun m read hm hread => ?_
  rw [List.length_cons] at hm
  obtain ⟨m, rfl⟩ : ∃ k, m = k + 1 := ⟨m - 1, by omega⟩
  rw [Rule.postfixes_succ]
  refine Accepts.skip (Accepts.accept_false hr.call) fun b hb => ?_
  subst hb
  refine Accepts.skip (Accepts.accept_false hr.property) fun b hb => ?_
  subst hb
  exact Accepts.pure hread

/-- An operand without operators is an operation of any precedence. -/
theorem operation (h : Form.Accepted (.operand .unary) ts e) (hne : ts ≠ []) (p : Precedence) :
    Form.Accepted (.operand (.operation p)) ts e := by
  have factor : Form.Accepted (.operand (.operation .factor)) ts e := tighter (p := .factor) h hne
  have term : Form.Accepted (.operand (.operation .term)) ts e := tighter (p := .term) factor hne
  have comparison : Form.Accepted (.operand (.operation .comparison)) ts e :=
    tighter (p := .comparison) term hne
  have equality : Form.Accepted (.operand (.operation .equality)) ts e :=
    tighter (p := .equality) comparison hne
  have and : Form.Accepted (.operand (.operation .and)) ts e := tighter (p := .and) equality hne
  cases p with
  | or => exact tighter (p := .or) and hne
  | and => exact and
  | equality => exact equality
  | comparison => exact comparison
  | term => exact term
  | factor => exact factor

/-- A primary expression begins a call. -/
theorem call (h : Form.Accepted .primary ts e) (hne : ts ≠ []) : Form.Accepted .call ts e := by
  intro n us rest Q hn hQ
  have hlen : 0 < ts.length := List.length_pos_of_ne_nil hne
  exact Accepts.bind (h n _ hn) fun read hread => hQ n read (by omega) hread

theorem optionalArguments {arguments : List Expr} (h : Form.Accepted .arguments ts arguments)
    (hp : Phrase .arguments ts arguments) (hn : 16 * ts.length ≤ n + 5)
    (hm : arguments.length ≤ maxListLength) (hr : Cursor.kindOf rest = .symbol .rightParen) :
    Accepts (Rule.optionalArguments n) ts rest fun read =>
      List.Forall₂ (Expr.Alike .upToNodes) read arguments := by
  unfold Rule.optionalArguments
  by_cases hts : ts = []
  · subst hts
    refine Accepts.skip (Accepts.sees _) fun b hb => ?_
    rw [show b = true by rw [hb]; exact decide_eq_true hr]
    cases hp.eq_nil rfl
    exact Accepts.pure .nil
  · obtain ⟨t, us, rfl, ht⟩ := hp.first fun _ => hts
    have hk : t.kind ≠ .symbol .rightParen := by
      intro hk
      rw [hk] at ht
      exact absurd ht (by decide)
    refine Accepts.skip (Accepts.sees _) fun b hb => ?_
    rw [show b = false by rw [hb]; exact decide_eq_false hk]
    exact h (hp.ne_nil hts) n 0 rest hn (by omega) hr

theorem invoke {opening closing : Token} {arguments : List Expr}
    (hc : Form.Accepted .call ts e) (ho : opening.kind = .symbol .leftParen)
    (ha : Form.Accepted .arguments us arguments) (hp : Phrase .arguments us arguments)
    (hm : arguments.length ≤ maxListLength) (hr : closing.kind = .symbol .rightParen) :
    Form.Accepted .call (ts ++ opening :: us ++ [closing]) (.call e arguments closing.line) := by
  intro n vs rest Q hn hQ
  simp only [List.length_append, List.length_cons, List.length_nil] at hn hQ
  rw [List.append_assoc, List.append_assoc, List.cons_append]
  refine hc n _ rest Q (by omega) fun m read hm' hread => ?_
  obtain ⟨m, rfl⟩ : ∃ k, m = k + 1 := ⟨m - 1, by omega⟩
  rw [Rule.postfixes_succ]
  refine Accepts.cons (Accepts.accept_true ho (by simp)) fun b hb => ?_
  subst hb
  refine Accepts.bind (optionalArguments ha hp (by omega) hm hr) fun read' hread' => ?_
  refine Accepts.cons (Accepts.expectSymbol hr) fun close hclose => ?_
  subst hclose
  exact hQ m _ (by omega) (.call hread hread' rfl)

theorem property {dot name : Token} (h : Form.Accepted .call ts e)
    (hd : dot.kind = .symbol .dot) (hk : name.kind = .identifier) :
    Form.Accepted .call (ts ++ [dot, name]) (.get e name.name) := by
  intro n vs rest Q hn hQ
  simp only [List.length_append, List.length_cons, List.length_nil] at hn hQ
  rw [List.append_assoc]
  refine h n _ rest Q (by omega) fun m read hm' hread => ?_
  obtain ⟨m, rfl⟩ : ∃ k, m = k + 1 := ⟨m - 1, by omega⟩
  rw [Rule.postfixes_succ]
  refine Accepts.skip (Accepts.accept_false ?_) fun b hb => ?_
  · exact fun h => by simp [hd] at h
  subst hb
  refine Accepts.cons (Accepts.accept_true hd (by simp)) fun b hb => ?_
  subst hb
  refine Accepts.cons (Accepts.expectName hk) fun name hname => ?_
  subst hname
  exact hQ m _ (by omega) (.get hread ⟨rfl, rfl⟩)

/-- A token that is a literal by itself. -/
theorem literal {t : Token} {value : Literal} (hk : t.kind ≠ .endOfSource)
    (h : ∀ n rest, Accepts (do Rule.advance; return .literal value) [t] rest (Same (.literal value)) →
      Accepts (Rule.primary (n + 1)) [t] rest (Same (.literal value))) :
    Form.Accepted .primary [t] (.literal value) := by
  intro n rest hn
  obtain ⟨n, rfl⟩ : ∃ k, n = k + 1 := ⟨n - 1, by simp only [List.length_singleton] at hn; omega⟩
  exact h n rest (Accepts.cons (Accepts.advance hk) fun _ _ => Accepts.pure (.literal value))

theorem this {t : Token} (id : NodeId) (hk : t.kind = .keyword .kwThis) :
    Form.Accepted .primary [t] (.this id t.line) := by
  intro n rest hn
  obtain ⟨n, rfl⟩ : ∃ k, n = k + 1 := ⟨n - 1, by simp only [List.length_singleton] at hn; omega⟩
  rw [Rule.primary]
  apply Accepts.peek
  rw [hk]
  refine Accepts.cons (Accepts.advance (by simp [hk])) fun _ _ => ?_
  exact Accepts.skip Accepts.freshId fun id _ => Accepts.pure (.this trivial rfl)

theorem name {t : Token} (id : NodeId) (hk : t.kind = .identifier) :
    Form.Accepted .primary [t] (.reference ⟨id, t.name⟩) := by
  intro n rest hn
  obtain ⟨n, rfl⟩ : ∃ k, n = k + 1 := ⟨n - 1, by simp only [List.length_singleton] at hn; omega⟩
  rw [Rule.primary]
  apply Accepts.peek
  rw [hk]
  refine Accepts.cons (Accepts.advance (by simp [hk])) fun _ _ => ?_
  exact Accepts.skip Accepts.freshId fun id _ => Accepts.pure (.reference ⟨trivial, rfl, rfl⟩)

theorem super {t dot method : Token} (id : NodeId) (hk : t.kind = .keyword .kwSuper)
    (hd : dot.kind = .symbol .dot) (hm : method.kind = .identifier) :
    Form.Accepted .primary [t, dot, method] (.super id t.line method.name) := by
  intro n rest hn
  obtain ⟨n, rfl⟩ : ∃ k, n = k + 1 :=
    ⟨n - 1, by simp only [List.length_cons, List.length_nil] at hn; omega⟩
  rw [Rule.primary]
  apply Accepts.peek
  rw [hk]
  refine Accepts.cons (Accepts.advance (by simp [hk])) fun _ _ => ?_
  refine Accepts.cons (Accepts.expectSymbol hd) fun _ _ => ?_
  refine Accepts.cons (Accepts.expectName hm) fun name hname => ?_
  subst hname
  exact Accepts.skip Accepts.freshId fun id _ => Accepts.pure (.super trivial rfl ⟨rfl, rfl⟩)

theorem grouping {opening closing : Token} (ho : opening.kind = .symbol .leftParen)
    (h : Form.Accepted .expression ts e) (hc : closing.kind = .symbol .rightParen) :
    Form.Accepted .primary (opening :: ts ++ [closing]) (.grouping e) := by
  intro n rest hn
  simp only [List.length_append, List.length_cons, List.length_nil] at hn
  obtain ⟨n, rfl⟩ : ∃ k, n = k + 1 := ⟨n - 1, by omega⟩
  rw [Rule.primary]
  apply Accepts.peek
  rw [ho]
  refine Accepts.cons (Accepts.advance (by simp [ho])) fun _ _ => ?_
  refine Accepts.bind (h n _ (by omega) ?_ ?_) fun read hread => ?_
  · exact stops_of_closing (by simp [hc, closes])
  · simp [hc]
  · refine Accepts.cons (Accepts.expectSymbol hc) fun _ _ => ?_
    exact Accepts.pure (.grouping hread)

/-- An operation that no equals sign follows is an expression. -/
theorem expression (h : Form.Accepted (.operand (.operation .or)) ts e) (hne : ts ≠ []) :
    Form.Accepted .expression ts e := by
  intro n rest hn hr he
  have hlen : 0 < ts.length := List.length_pos_of_ne_nil hne
  obtain ⟨n, rfl⟩ : ∃ k, n = k + 1 := ⟨n - 1, by omega⟩
  rw [Rule.expression]
  refine Accepts.last (h.full (o := .operation .or) hne (by simp only [Operand.slack]; omega) hr)
    fun read hread => ?_
  refine Accepts.skip (Accepts.accept?_none he) fun a ha => ?_
  subst ha
  exact Accepts.pure hread

/-- Before an equals sign, an operation is read as a target. -/
theorem assign {equal : Token} {target value result : Expr}
    (ht : Form.Accepted (.operand (.operation .or)) ts target) (hne : ts ≠ [])
    (he : equal.kind = .symbol .equal) (hv : Form.Accepted .expression us value)
    (hassign : ∀ rest a b, Same target a → Same value b →
      Accepts (Rule.assignTo a b equal.line) [] rest (Same result)) :
    Form.Accepted .expression (ts ++ equal :: us) result := by
  intro n rest hn hr hre
  simp only [List.length_append, List.length_cons] at hn
  obtain ⟨n, rfl⟩ : ∃ k, n = k + 1 := ⟨n - 1, by omega⟩
  rw [Rule.expression]
  refine Accepts.bind (ht.full (o := .operation .or) hne (by simp only [Operand.slack]; omega) ?_)
    fun a ha => ?_
  · exact stops_of_closing (by simp [he, closes])
  refine Accepts.cons (Accepts.accept?_some he (by simp)) fun found hfound => ?_
  subst hfound
  exact Accepts.last (hv n _ (by omega) hr hre) fun b hb => hassign rest a b ha hb

theorem assignName {name equal : Token} {value : Expr} (id : NodeId)
    (hn : name.kind = .identifier) (he : equal.kind = .symbol .equal)
    (hv : Form.Accepted .expression ts value) :
    Form.Accepted .expression (name :: equal :: ts) (.assign ⟨id, name.name⟩ value) := by
  have hcall : Form.Accepted .call [name] (.reference ⟨id, name.name⟩) :=
    (Form.Accepted.name id hn).call (by simp)
  have htarget := (hcall.unary ⟨name, [], rfl, by rw [hn]; rfl⟩).operation (by simp) .or
  refine assign htarget (by simp) he hv fun rest a b ha hb => ?_
  cases ha with
  | @reference r _ hr =>
    exact Accepts.skip Accepts.freshId fun id _ => Accepts.pure (.assign ⟨trivial, hr.name⟩ hb)

theorem assignProperty {dot name equal : Token} {object value : Expr}
    (ho : Form.Accepted .call ts object) (hf : ∃ t us, ts = t :: us ∧ beginsPrimary t.kind)
    (hd : dot.kind = .symbol .dot) (hn : name.kind = .identifier)
    (he : equal.kind = .symbol .equal) (hv : Form.Accepted .expression us value) :
    Form.Accepted .expression (ts ++ dot :: name :: equal :: us) (.set object name.name value) := by
  have hcall : Form.Accepted .call (ts ++ [dot, name]) (.get object name.name) :=
    ho.property hd hn
  obtain ⟨first, after, rfl, hfirst⟩ := hf
  have hunary := hcall.unary ⟨first, after ++ [dot, name], rfl, hfirst⟩
  have htarget := hunary.operation (by simp) .or
  have hassign : ∀ rest a b, Same (.get object name.name) a → Same value b →
      Accepts (Rule.assignTo a b equal.line) [] rest (Same (.set object name.name value)) := by
    intro rest a b ha hb
    cases ha with
    | get hobject hname => exact Accepts.pure (.set hobject hname hb)
  have h := assign htarget (by simp) he hv hassign
  simpa using h

theorem oneArgument (h : Form.Accepted .expression ts e) (hne : ts ≠ []) :
    Form.Accepted .arguments ts [e] := by
  intro _ n count rest hn hm hr
  have hlen : 0 < ts.length := List.length_pos_of_ne_nil hne
  obtain ⟨n, rfl⟩ : ∃ k, n = k + 1 := ⟨n - 1, by omega⟩
  rw [Rule.arguments]
  refine Accepts.skip (Accepts.noteIfFull ?_) fun _ _ => ?_
  · simp only [List.length_singleton, maxListLength, Cursor.maxArity] at *
    omega
  refine Accepts.last (h n _ (by omega) ?_ ?_) fun read hread => ?_
  · exact stops_of_closing (by rw [hr]; rfl)
  · simp [hr]
  refine Accepts.skip (Accepts.accept_false ?_) fun b hb => ?_
  · rw [List.nil_append, hr]
    simp
  subst hb
  exact Accepts.pure (.cons hread .nil)

theorem moreArguments {comma : Token} {es : List Expr} (h : Form.Accepted .expression ts e)
    (hc : comma.kind = .symbol .comma) (hes : Form.Accepted .arguments us es) (hne : es ≠ []) :
    Form.Accepted .arguments (ts ++ comma :: us) (e :: es) := by
  intro _ n count rest hn hm hr
  simp only [List.length_append, List.length_cons] at hn hm
  obtain ⟨n, rfl⟩ : ∃ k, n = k + 1 := ⟨n - 1, by omega⟩
  rw [Rule.arguments]
  refine Accepts.skip (Accepts.noteIfFull ?_) fun _ _ => ?_
  · simp only [maxListLength, Cursor.maxArity] at *
    omega
  refine Accepts.bind (h n _ (by omega) ?_ ?_) fun read hread => ?_
  · exact stops_of_closing (by simp [hc, closes])
  · simp [hc]
  refine Accepts.cons (Accepts.accept_true hc (by simp)) fun b hb => ?_
  subst hb
  rw [if_pos rfl]
  refine Accepts.last (hes hne n (count + 1) _ (by omega) (by omega) hr) fun reads hreads => ?_
  exact Accepts.pure (.cons hread hreads)

end Form.Accepted

/-- Every phrase is read by the rule of its form. -/
theorem Phrase.accepted {s : Form} {ts : List Token} {t : s.Tree} (h : Phrase s ts t) :
    s.Accepted ts t := by
  induction h with
  | assignName id hn he hv ih => exact .assignName id hn he ih
  | assignProperty ho hd hn he hv iho ihv => exact .assignProperty iho (ho.first (by rintro ⟨⟩)) hd hn he ihv
  | operation h ih => exact ih.expression (h.tokens_ne_nil (by rintro ⟨⟩))
  | join hl ho hr ihl ihr => exact ihl.join ho ihr (hr.tokens_ne_nil (by rintro ⟨⟩))
  | tighter h ih => exact ih.tighter (h.tokens_ne_nil (by rintro ⟨⟩))
  | not ho h ih => exact ih.sign (by rw [ho]; rfl)
  | negate ho h ih => exact ih.sign (by rw [ho]; rfl)
  | call h ih => exact ih.unary (h.first (by rintro ⟨⟩))
  | invoke hc ho ha hm hr ihc iha => exact ihc.invoke ho iha ha hm hr
  | property ho hd hn ih => exact ih.property hd hn
  | primary h ih => exact ih.call (h.tokens_ne_nil (by rintro ⟨⟩))
  | number h | string h | true h | false h | nil h =>
    refine .literal (by simp [h]) fun n rest hQ => ?_
    rw [Rule.primary]
    apply Accepts.peek
    rw [h]
    exact hQ
  | this id h => exact .this id h
  | name id h => exact .name id h
  | grouping ho h hc ih => exact .grouping ho ih hc
  | super id ht hd hm => exact .super id ht hd hm
  | noArguments => exact fun h => absurd rfl h
  | oneArgument h ih => exact ih.oneArgument (h.tokens_ne_nil (by rintro ⟨⟩))
  | moreArguments h hc hes hne ih ihs => exact ih.moreArguments hc ihs hne

end Grammar

end Lox
