import Lox.Proofs.Grammar
import Lox.Proofs.Grammar.Reading
import Lox.Proofs.Syntax.Nodes

/-!
# Expressions are read by the grammar

What the rules for expressions read without noting a fault is a phrase of the grammar, and the nodes
of its tree carry the numbers that were taken meanwhile.
-/

namespace Lox

open Grammar

/-- Arguments up to the closing parenthesis, which is not consumed. -/
def Rule.optionalArguments (n : Nat) : Rule (List Expr) := do
  if ← sees (.symbol .rightParen) then return [] else arguments n 0

theorem Rule.postfixes_succ (n : Nat) (e : Expr) :
    postfixes (n + 1) e = (do
      if ← accept (.symbol .leftParen) then
        let arguments ← optionalArguments n
        let close ← expectSymbol .rightParen .afterArguments
        postfixes n (.call e arguments close.line)
      else if ← accept (.symbol .dot) then
        postfixes n (.get e (← expectName .ofProperty))
      else
        return e) := by
  rw [postfixes]
  refine congrArg (accept _ >>= ·) (funext fun b => ?_)
  cases b with
  | false => rfl
  | true =>
    simp only [if_true, optionalArguments, bind_assoc]
    exact congrArg (sees _ >>= ·) (funext fun b => by cases b <;> rfl)

namespace Grammar

/-- The operators of one precedence, as a table. -/
def Precedence.level : Precedence → Cursor.Level
  | or => [(.keyword .kwOr, .logical .or)]
  | and => [(.keyword .kwAnd, .logical .and)]
  | equality => [(.symbol .bangEqual, .binary .notEqual), (.symbol .equalEqual, .binary .equal)]
  | comparison =>
    [(.symbol .greater, .binary .greater), (.symbol .greaterEqual, .binary .greaterEqual),
      (.symbol .less, .binary .less), (.symbol .lessEqual, .binary .lessEqual)]
  | term => [(.symbol .minus, .binary .subtract), (.symbol .plus, .binary .add)]
  | factor => [(.symbol .star, .binary .multiply), (.symbol .slash, .binary .divide)]

/-- The levels of operators that an operand may have outside parentheses. -/
def Operand.levels : Operand → List Cursor.Level
  | .unary => []
  | .operation .factor => [Precedence.factor.level]
  | .operation .term => [Precedence.term.level, Precedence.factor.level]
  | .operation .comparison =>
    [Precedence.comparison.level, Precedence.term.level, Precedence.factor.level]
  | .operation .equality =>
    [Precedence.equality.level, Precedence.comparison.level, Precedence.term.level,
      Precedence.factor.level]
  | .operation .and =>
    [Precedence.and.level, Precedence.equality.level, Precedence.comparison.level,
      Precedence.term.level, Precedence.factor.level]
  | .operation .or =>
    [Precedence.or.level, Precedence.and.level, Precedence.equality.level,
      Precedence.comparison.level, Precedence.term.level, Precedence.factor.level]

theorem levels_operation (p : Precedence) :
    (Operand.operation p).levels = p.level :: p.tighter.levels := by
  cases p <;> rfl

/-- An operator has the precedence of the level that it is found in. -/
theorem has_of_lookup {p : Precedence} {kind : Token.Kind} {connective : Connective}
    (h : p.level.lookup kind = some connective) : p.Has kind connective := by
  have hm := List.lookup_eq_some_iff.1 h
  obtain ⟨before, after, hl, -⟩ := hm
  have hmem : (kind, connective) ∈ p.level := by rw [hl]; simp
  cases p <;> simp only [Precedence.level, List.mem_cons, Prod.mk.injEq, List.not_mem_nil,
    or_false] at hmem
  · obtain ⟨rfl, rfl⟩ := hmem; exact .or
  · obtain ⟨rfl, rfl⟩ := hmem; exact .and
  · rcases hmem with ⟨rfl, rfl⟩ | ⟨rfl, rfl⟩
    · exact .notEqual
    · exact .equal
  · rcases hmem with ⟨rfl, rfl⟩ | ⟨rfl, rfl⟩ | ⟨rfl, rfl⟩ | ⟨rfl, rfl⟩
    · exact .greater
    · exact .greaterEqual
    · exact .less
    · exact .lessEqual
  · rcases hmem with ⟨rfl, rfl⟩ | ⟨rfl, rfl⟩
    · exact .subtract
    · exact .add
  · rcases hmem with ⟨rfl, rfl⟩ | ⟨rfl, rfl⟩
    · exact .multiply
    · exact .divide

theorem Precedence.Has.ne_endOfSource {p : Precedence} {kind : Token.Kind}
    {connective : Connective} (h : p.Has kind connective) : kind ≠ .endOfSource := by
  cases h <;> simp

/-- The tree of a form that has a single one. -/
def Form.expr? : (s : Form) → s.Tree → Option Expr
  | .arguments, _ => none
  | .expression, e => some e
  | .operand _, e => some e
  | .call, e => some e
  | .primary, e => some e

/-- A name on its own is read as nothing else. -/
theorem Phrase.of_reference {s : Form} {ts : List Token} {t : s.Tree} (h : Phrase s ts t)
    {r : Reference} (ht : s.expr? t = some (.reference r)) :
    ∃ name : Token, ts = [name] ∧ name.kind = .identifier ∧ r.name = name.name := by
  induction h with
  | operation _ ih => exact ih ht
  | tighter _ ih => exact ih ht
  | call _ ih => exact ih ht
  | primary _ ih => exact ih ht
  | @join _ _ connective =>
    cases connective <;> simp [Form.expr?, Connective.join] at ht
  | @name t id hk =>
    simp only [Form.expr?, Option.some.injEq, Expr.reference.injEq] at ht
    exact ⟨t, rfl, hk, by rw [← ht]⟩
  | _ => simp [Form.expr?] at ht

/-- A property is a call before a dot and a name. -/
theorem Phrase.of_get {s : Form} {ts : List Token} {t : s.Tree} (h : Phrase s ts t)
    {object : Expr} {property : Identifier} (ht : s.expr? t = some (.get object property)) :
    ∃ (us : List Token) (dot name : Token), ts = us ++ [dot, name] ∧ Phrase .call us object ∧
      dot.kind = .symbol .dot ∧ name.kind = .identifier ∧ property = name.name := by
  induction h with
  | operation _ ih => exact ih ht
  | tighter _ ih => exact ih ht
  | call _ ih => exact ih ht
  | primary _ ih => exact ih ht
  | @join _ _ connective =>
    cases connective <;> simp [Form.expr?, Connective.join] at ht
  | @property dot name us _ ho hd hn =>
    simp only [Form.expr?, Option.some.injEq, Expr.get.injEq] at ht
    obtain ⟨rfl, rfl⟩ := ht
    exact ⟨us, dot, name, rfl, ho, hd, hn, rfl⟩
  | _ => simp [Form.expr?] at ht

/-- The tokens are a phrase, and its nodes have the numbers that were taken meanwhile. -/
def IsPhrase (s : Form) (nodes : s.Tree → List NodeId) : Rule.Property s.Tree :=
  fun ts i j _ t => Phrase s ts t ∧ Numbered i j (nodes t)

/-- What the rules of depth `n` read. -/
structure ReadsExpressions (n : Nat) : Prop where
  expression : ∀ c, Rule.Reads (IsPhrase .expression Expr.nodes) c (Rule.expression n)
  operators : ∀ (o : Operand) c,
    Rule.Reads (IsPhrase (.operand o) Expr.nodes) c (Rule.operators n o.levels)
  moreOperands : ∀ (p : Precedence) left c,
    Rule.Reads (fun us i j next e => ∀ ts k, Phrase (.operand (.operation p)) ts left →
      Numbered k i left.nodes → IsPhrase (.operand (.operation p)) Expr.nodes (ts ++ us) k j next e) c
      (Rule.moreOperands n p.level p.tighter.levels left)
  unary : ∀ c, Rule.Reads (IsPhrase (.operand .unary) Expr.nodes) c (Rule.unary n)
  postfixes : ∀ left c,
    Rule.Reads (fun us i j next e => ∀ ts k, Phrase .call ts left → Numbered k i left.nodes →
      IsPhrase .call Expr.nodes (ts ++ us) k j next e) c (Rule.postfixes n left)
  arguments : ∀ count c,
    Rule.Reads (fun ts i j next es => IsPhrase .arguments Expr.nodesAll ts i j next es ∧ es ≠ [] ∧
      count + es.length ≤ maxListLength) c (Rule.arguments n count)
  primary : ∀ c, Rule.Reads (IsPhrase .primary Expr.nodes) c (Rule.primary n)

namespace ReadsExpressions

open Rule Reads

variable {n : Nat}

theorem optionalArguments (ih : ReadsExpressions n) (c : Cursor) :
    Reads (fun ts i j next es => IsPhrase .arguments Expr.nodesAll ts i j next es ∧
      es.length ≤ maxListLength) c (Rule.optionalArguments n) := by
  refine test fun b => ?_
  cases b with
  | true => exact Reads.pure _ ⟨⟨.noArguments, .nil (Nat.le_refl _)⟩, by simp [maxListLength]⟩
  | false =>
    refine (ih.arguments 0 c).mono ?_
    rintro ts i j next es ⟨hp, -, hl⟩
    exact ⟨hp, by omega⟩

/-- After the equals sign, whose value is read, the expression before it becomes the target. -/
theorem assignTo {target value : Expr} {line : Nat} (c : Cursor) :
    Reads (fun ts i j next e => ∀ (us vs : List Token) (equal : Token) k l,
      Phrase (.operand (.operation .or)) us target → Numbered k l target.nodes →
      equal.kind = .symbol .equal → Phrase .expression vs value → Numbered l i value.nodes →
      IsPhrase .expression Expr.nodes (us ++ equal :: (vs ++ ts)) k j next e) c
      (Rule.assignTo target value line) := by
  unfold Rule.assignTo
  split
  · next r =>
    refine Reads.bind (freshId c) fun id d => Reads.pure _ ?_
    rintro ts i ⟨rfl, rfl, hi⟩ us vs equal k l ht hn he hv hnv
    obtain ⟨name, rfl, hk, hr⟩ := ht.of_reference rfl
    refine ⟨?_, (hnv.append (hi ▸ .next _)).widen hn.le⟩
    have h := Phrase.assignName id hk he hv
    simpa [hr] using h
  · next object property =>
    refine Reads.pure _ ?_
    intro us vs equal k l ht hn he hv hnv
    obtain ⟨us, dot, name, rfl, ho, hd, hk, rfl⟩ := ht.of_get rfl
    refine ⟨?_, hn.append_comm hnv⟩
    have h := Phrase.assignProperty ho hd hk he hv
    simpa using h
  · refine Reads.bind (note _ line c) fun _ d => Reads.pure _ ?_
    rintro ts i ⟨⟩

theorem succ_expression (ih : ReadsExpressions n) (c : Cursor) :
    Reads (IsPhrase .expression Expr.nodes) c (Rule.expression (n + 1)) := by
  rw [Rule.expression]
  refine bind (ih.operators (.operation .or) c) fun target d => ?_
  refine bind (accept? (by simp) d) fun a d => ?_
  cases a with
  | none =>
    refine Reads.pure _ ?_
    rintro us j ⟨rfl, rfl, -⟩ ts i ⟨hp, hn⟩
    rw [List.append_nil, List.append_nil]
    exact ⟨.operation hp, hn⟩
  | some equal =>
    refine bind (ih.expression d) fun value d => (assignTo d).mono ?_
    rintro ts i j next e h vs k ⟨hv, hnv⟩ _ l ⟨rfl, rfl, he⟩ us m ⟨ht, hnt⟩
    exact h us vs equal m _ ht hnt he hv hnv

theorem succ_operators (ih : ReadsExpressions n) (o : Operand) (c : Cursor) :
    Reads (IsPhrase (.operand o) Expr.nodes) c (Rule.operators (n + 1) o.levels) := by
  cases o with
  | unary => exact ih.unary c
  | operation p =>
    rw [levels_operation, Rule.operators]
    refine bind (ih.operators p.tighter c) fun left d => (ih.moreOperands p left d).mono ?_
    rintro us i j next e h ts k ⟨hp, hn⟩
    exact h ts k (.tighter hp) hn

theorem succ_moreOperands (ih : ReadsExpressions n) (p : Precedence) (left : Expr) (c : Cursor) :
    Reads (fun us i j next e => ∀ ts k, Phrase (.operand (.operation p)) ts left →
      Numbered k i left.nodes → IsPhrase (.operand (.operation p)) Expr.nodes (ts ++ us) k j next e) c
      (Rule.moreOperands (n + 1) p.level p.tighter.levels left) := by
  rw [Rule.moreOperands]
  apply Reads.peek
  split
  · next connective hl =>
    have ho := has_of_lookup hl
    refine bind (advance ho.ne_endOfSource) fun _ d => ?_
    refine bind (ih.operators p.tighter d) fun right d => (ih.moreOperands p _ d).mono ?_
    rintro vs i j next e h us k ⟨hr, hnr⟩ _ l ⟨rfl, rfl⟩ ts m hp hn
    have hnodes : (connective.join c.current.line left right).nodes = left.nodes ++ right.nodes := by
      cases connective <;> rfl
    have := h (ts ++ c.current :: us) m (.join hp ho hr) (hnodes ▸ hn.append hnr)
    simpa using this
  · refine Reads.pure _ ?_
    intro ts k hp hn
    rw [List.append_nil]
    exact ⟨hp, hn⟩

theorem succ_unary (ih : ReadsExpressions n) (c : Cursor) :
    Reads (IsPhrase (.operand .unary) Expr.nodes) c (Rule.unary (n + 1)) := by
  rw [Rule.unary]
  apply Reads.peek
  split
  · next operator ho =>
    have hc : (operator = .not ∧ c.current.kind = .symbol .bang) ∨
        (operator = .negate ∧ c.current.kind = .symbol .minus) := by
      unfold Cursor.unaryOperator? at ho
      split at ho <;> simp_all
    have hend : c.current.kind ≠ .endOfSource := by
      rcases hc with ⟨-, hk⟩ | ⟨-, hk⟩ <;> simp [hk]
    refine bind (advance hend) fun _ d => bind (ih.unary d) fun operand d => Reads.pure _ ?_
    rintro ts i ⟨hp, hn⟩ _ j ⟨rfl, rfl⟩
    rcases hc with ⟨rfl, hk⟩ | ⟨rfl, hk⟩
    · exact ⟨by simpa using Phrase.not hk hp, hn⟩
    · exact ⟨by simpa using Phrase.negate hk hp, hn⟩
  · refine bind (ih.primary c) fun callee d => (ih.postfixes callee d).mono ?_
    rintro us i j next e h ts k ⟨hp, hn⟩
    obtain ⟨hp', hn'⟩ := h ts k (.primary hp) hn
    exact ⟨.call hp', hn'⟩

theorem succ_postfixes (ih : ReadsExpressions n) (left : Expr) (c : Cursor) :
    Reads (fun us i j next e => ∀ ts k, Phrase .call ts left → Numbered k i left.nodes →
      IsPhrase .call Expr.nodes (ts ++ us) k j next e) c (Rule.postfixes (n + 1) left) := by
  rw [Rule.postfixes_succ]
  refine bind (accept (by simp) c) fun invoked d => ?_
  cases invoked with
  | true =>
    refine bind (ih.optionalArguments d) fun arguments d => ?_
    refine bind (expectSymbol _ _ d) fun close d => (ih.postfixes _ d).mono ?_
    rintro ws i j next e h _ k ⟨rfl, hr, rfl⟩ us l ⟨⟨ha, hna⟩, hm⟩ _ m ⟨rfl, opening, rfl, ho⟩ ts k'
      hp hn
    have := h (ts ++ opening :: us ++ [close]) k' (.invoke hp ho ha hm hr) (hn.append hna)
    simpa using this
  | false =>
    refine bind (accept (by simp) d) fun dotted d => ?_
    cases dotted with
    | true =>
      refine bind (expectName _ d) fun name d => (ih.postfixes _ d).mono ?_
      rintro us i j next e h _ k ⟨name, rfl, hk, rfl, rfl⟩ _ l ⟨rfl, dot, rfl, hd⟩ _ m ⟨rfl, rfl, -⟩ ts k'
        hp hn
      have := h (ts ++ [dot, name]) k' (.property hp hd hk) hn
      simpa using this
    | false =>
      refine Reads.pure _ ?_
      rintro _ i ⟨rfl, rfl, -⟩ _ j ⟨rfl, rfl, -⟩ ts k hp hn
      exact ⟨by simpa using hp, hn⟩

theorem succ_arguments (ih : ReadsExpressions n) (count : Nat) (c : Cursor) :
    Reads (fun ts i j next es => IsPhrase .arguments Expr.nodesAll ts i j next es ∧ es ≠ [] ∧
      count + es.length ≤ maxListLength) c (Rule.arguments (n + 1) count) := by
  rw [Rule.arguments]
  refine bind (noteIfFull count _ c) fun _ d => bind (ih.expression d) fun e d => ?_
  refine bind (accept (by simp) d) fun another d => ?_
  cases another with
  | true =>
    refine bind (ih.arguments (count + 1) d) fun es d => Reads.pure _ ?_
    rintro us i ⟨⟨ha, hna⟩, hne, hm⟩ _ j ⟨rfl, comma, rfl, hc⟩ ts k ⟨hp, hn⟩ _ l ⟨rfl, rfl, hl⟩
    refine ⟨⟨?_, hn.append hna⟩, by simp, by simp only [List.length_cons]; omega⟩
    simpa using Phrase.moreArguments hp hc ha hne
  | false =>
    refine Reads.pure _ ?_
    rintro _ j ⟨rfl, rfl, -⟩ ts k ⟨hp, hn⟩ _ l ⟨rfl, rfl, hl⟩
    have hn' : Numbered l d.nextId (Expr.nodesAll [e]) := by simpa [Expr.nodesAll] using hn
    refine ⟨⟨?_, hn'⟩, by simp, ?_⟩
    · simpa using Phrase.oneArgument hp
    · simp only [Cursor.maxArity, maxListLength, List.length_singleton] at *
      omega

/-- A literal is one token. -/
theorem literal {value : Literal} {c : Cursor} (hc : c.current.kind ≠ .endOfSource)
    (h : Phrase .primary [c.current] (.literal value)) :
    Reads (IsPhrase .primary Expr.nodes) c
      (do Rule.advance; return .literal value : Rule Expr) := by
  refine bind (advance hc) fun _ d => Reads.pure _ ?_
  rintro _ i ⟨rfl, rfl⟩
  exact ⟨h, .nil (Nat.le_refl _)⟩

theorem succ_primary (ih : ReadsExpressions n) (c : Cursor) :
    Reads (IsPhrase .primary Expr.nodes) c (Rule.primary (n + 1)) := by
  rw [Rule.primary]
  apply Reads.peek
  split
  · next hk => exact literal (by simp [hk]) (.false hk)
  · next hk => exact literal (by simp [hk]) (.true hk)
  · next hk => exact literal (by simp [hk]) (.nil hk)
  · next hk => exact literal (by simp [hk]) (.number hk)
  · next hk => exact literal (by simp [hk]) (.string hk)
  · next hk =>
    refine bind (advance (by simp [hk])) fun _ d => bind (freshId d) fun id d => Reads.pure _ ?_
    rintro _ i ⟨rfl, rfl, hi⟩ _ j ⟨rfl, rfl⟩
    exact ⟨.this _ hk, hi ▸ .next _⟩
  · next hk =>
    refine bind (advance (by simp [hk])) fun _ d => bind (freshId d) fun id d => Reads.pure _ ?_
    rintro _ i ⟨rfl, rfl, hi⟩ _ j ⟨rfl, rfl⟩
    exact ⟨.name _ hk, hi ▸ .next _⟩
  · next hk =>
    refine bind (advance (by simp [hk])) fun _ d => bind (expectSymbol _ _ d) fun dot d => ?_
    refine bind (expectName _ d) fun name d => bind (freshId d) fun id d => Reads.pure _ ?_
    rintro _ i ⟨rfl, rfl, hi⟩ _ j ⟨method, rfl, hm, rfl, rfl⟩ _ k ⟨rfl, hd, rfl⟩ _ l ⟨rfl, rfl⟩
    exact ⟨.super _ hk hd hm, hi ▸ .next _⟩
  · next hk =>
    refine bind (advance (by simp [hk])) fun _ d => bind (ih.expression d) fun inner d => ?_
    refine bind (expectSymbol _ _ d) fun closing d => Reads.pure _ ?_
    rintro _ i ⟨rfl, hc, rfl⟩ ts j ⟨hp, hn⟩ _ k ⟨rfl, rfl⟩
    exact ⟨by simpa using Phrase.grouping hk hp hc, hn⟩
  · exact Reads.fail _

theorem succ (ih : ReadsExpressions n) : ReadsExpressions (n + 1) where
  expression := ih.succ_expression
  operators := ih.succ_operators
  moreOperands := ih.succ_moreOperands
  unary := ih.succ_unary
  postfixes := ih.succ_postfixes
  arguments := ih.succ_arguments
  primary := ih.succ_primary

theorem zero : ReadsExpressions 0 where
  expression _ := trivial
  operators _ _ := trivial
  moreOperands _ _ _ := trivial
  unary _ := trivial
  postfixes _ _ := trivial
  arguments _ _ := trivial
  primary _ := trivial

end ReadsExpressions

/-- Whatever the depth, the rules read what the grammar says. -/
theorem readsExpressions (n : Nat) : ReadsExpressions n := by
  induction n with
  | zero => exact .zero
  | succ n ih => exact ih.succ

end Grammar

end Lox
