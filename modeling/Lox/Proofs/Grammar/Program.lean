import Lox.Proofs.Grammar.Settling
import Lox.Proofs.Grammar.StatementComplete

/-!
# Programs are exactly the lists of tokens of the grammar

A list of tokens before the end of the source is read as a program just in case the grammar derives
it, with the tree of the derivation up to the numbers of nodes. Every other list is turned down with
a fault: once a declaration is given up, its fault stays, wherever reading starts again.
-/

namespace Lox

namespace Grammar

open Rule

/-- No token of a phrase is the end of the source. -/
theorem Phrase.noEnd {s : Form} {ts : List Token} {t : s.Tree} (h : Phrase s ts t) :
    ∀ t ∈ ts, t.kind ≠ .endOfSource := by
  induction h with
  | join hl ho hr ihl ihr =>
    simp only [List.forall_mem_append, List.forall_mem_cons]
    exact ⟨ihl, ho.ne_endOfSource, ihr⟩
  | _ => simp_all [or_imp]

theorem OptionalPhrase.noEnd {ts : List Token} {value : Option Expr} (h : OptionalPhrase ts value) :
    ∀ t ∈ ts, t.kind ≠ .endOfSource := by
  cases h with
  | none => simp
  | some h => exact h.noEnd

theorem Parameters.noEnd {ts : List Token} {names : List Identifier} (h : Parameters ts names) :
    ∀ t ∈ ts, t.kind ≠ .endOfSource := by
  induction h with
  | _ => simp_all

theorem Variable.noEnd {ts : List Token} {s : Stmt} (h : Variable ts s) :
    ∀ t ∈ ts, t.kind ≠ .endOfSource := by
  cases h with
  | plain hn hs => simp [hn, hs]
  | withValue hn he hv hs =>
    have := hv.noEnd
    simp_all [or_imp]

theorem ForInitial.noEnd {ts : List Token} {s : Option Stmt} (h : ForInitial ts s) :
    ∀ t ∈ ts, t.kind ≠ .endOfSource := by
  cases h with
  | none hs => simp [hs]
  | varDeclaration hk h => simpa [hk] using h.noEnd
  | expression h hs =>
    have := h.noEnd
    simp_all [or_imp]

theorem Superclass.noEnd {ts : List Token} {s : Option Reference} (h : Superclass ts s) :
    ∀ t ∈ ts, t.kind ≠ .endOfSource := by
  cases h with
  | none => simp
  | inherits id hl hn => simp [hl, hn]

/-- No token of a clause is the end of the source. -/
theorem Clause.noEnd {s : StatementForm} {ts : List Token} {t : s.Tree} (h : Clause s ts t) :
    ∀ t ∈ ts, t.kind ≠ .endOfSource := by
  induction h with
  | classDef hk hn hs ho hm hc ih =>
    have := hs.noEnd
    simp_all [or_imp]
  | varDeclaration hk h => simpa [hk] using h.noEnd
  | function hn hop hp hm hcp ho hb hc ih =>
    have := hp.noEnd
    simp_all [or_imp]
  | expression h hs | print _ h hs | ret _ h hs =>
    have := h.noEnd
    simp_all [or_imp]
  | ifThen hk ho h hc ht ih | whileLoop hk ho h hc hb ih =>
    have := h.noEnd
    simp_all [or_imp]
  | ifThenElse hk ho h hc ht hke he iht ihe =>
    have := h.noEnd
    simp_all [or_imp]
  | forLoop hk ho hi h hs hn hc hb ih =>
    have := hi.noEnd
    have := h.noEnd
    have := hn.noEnd
    simp_all [or_imp]
  | _ => simp_all [or_imp]

/-- If no fault is noted to the end, all that is read is a list of declarations. -/
theorem declarations_sound (depth n : Nat) (before : List Stmt) (c : Cursor)
    (h : (Cursor.declarations depth n before c).2.faults = []) :
    c.faults = [] ∧ (c.tokens.length ≤ n → ∃ read ts,
      (Cursor.declarations depth n before c).1 = before.reverse ++ read ∧
      c.tokens = ts ++ (Cursor.declarations depth n before c).2.tokens ∧
      (Cursor.declarations depth n before c).2.isAtEnd = true ∧ Program ts read ∧
      Numbered c.nextId (Cursor.declarations depth n before c).2.nextId (Stmt.nodesAll read)) := by
  induction n generalizing before c with
  | zero =>
    refine ⟨h, fun hn => ⟨[], [], (List.append_nil _).symm, rfl, ?_, .noDeclarations,
      .nil (Nat.le_refl _)⟩⟩
    have ht : c.tokens = [] := List.length_eq_zero_iff.1 (Nat.le_zero.1 hn)
    simp [Cursor.declarations, Cursor.isAtEnd, Cursor.current, ht, Token.atEnd]
  | succ n ih =>
    rw [Cursor.declarations] at h ⊢
    split at h
    · next hend =>
      rw [if_pos hend]
      exact ⟨h, fun _ => ⟨[], [], (List.append_nil _).symm, rfl, hend, .noDeclarations,
        .nil (Nat.le_refl _)⟩⟩
    · next hend =>
      rw [if_neg hend]
      have hread := (readsStatements depth).declaration c
      unfold Reads at hread
      split at h
      · next s d hd =>
        rw [hd] at hread
        obtain ⟨-, ts, noted, ht, hf, hP⟩ := hread
        obtain ⟨hd', hrest⟩ := ih (s :: before) d h
        obtain ⟨rfl, hc⟩ := List.append_eq_nil_iff.1 (hf ▸ hd')
        refine ⟨hc, fun hn => ?_⟩
        obtain ⟨hs, hnum⟩ := hP rfl
        obtain ⟨first, us, rfl, -⟩ := hs.first (by rintro ⟨⟩) (by rintro ⟨⟩)
        have hlen : d.tokens.length ≤ n := by
          rw [ht, List.length_append, List.length_cons] at hn
          omega
        obtain ⟨read, vs, hl, hts, hatEnd, hp, hnums⟩ := hrest hlen
        refine ⟨s :: read, first :: us ++ vs, by simpa using hl, ?_, hatEnd,
          .moreDeclarations hs hp, hnum.append hnums⟩
        rw [List.append_assoc, ← hts, ht]
      · -- A declaration that was given up has left its fault.
        obtain ⟨hd, -⟩ := ih before _ h
        simp only [Cursor.synchronized] at hd
        split at hd <;> simp at hd
      · simp [Cursor.noted] at h

/-- However reading ends, numbers are not given back. -/
theorem nextId_le_declarations (depth n : Nat) (before : List Stmt) (c : Cursor) :
    c.nextId ≤ (Cursor.declarations depth n before c).2.nextId := by
  induction n generalizing before c with
  | zero => exact Nat.le_refl _
  | succ n ih =>
    rw [Cursor.declarations]
    split
    · exact Nat.le_refl _
    · have hread := (readsStatements depth).declaration c
      unfold Reads at hread
      split
      · next s d hd =>
        rw [hd] at hread
        exact Nat.le_trans hread.1 (ih _ d)
      · next fault d hd =>
        rw [hd] at hread
        refine Nat.le_trans hread (Nat.le_trans ?_ (ih _ _))
        simp only [Cursor.synchronized]
        split <;> exact Nat.le_refl _
      · exact Nat.le_refl _

/-- Declarations are read one after the other, and then what follows them is read. -/
theorem accepts_declarations {parts : List (List Token)} {body : List Stmt} {rest : List Token}
    (h : List.Forall₂ DeclarationAccepted parts body)
    (hr : Cursor.kindOf rest ≠ .keyword .kwElse) {depth n : Nat}
    (hd : 16 * parts.flatten.length ≤ depth) (hn : parts.flatten.length ≤ n)
    (before : List Stmt) (i : NodeId) (faults : List Diagnostic) :
    ∃ later j k, n ≤ k + parts.flatten.length ∧ StmtsAlike .upToNodes later body ∧
      Cursor.declarations depth n before ⟨parts.flatten ++ rest, i, faults⟩ =
        Cursor.declarations depth k (later.reverse ++ before) ⟨rest, j, faults⟩ := by
  induction h generalizing n before i with
  | nil => exact ⟨[], i, n, Nat.le_add_right n _, .nil, rfl⟩
  | @cons part s parts body hs hbody ih =>
    obtain ⟨⟨first, us, rfl, hk⟩, hs⟩ := hs
    simp only [List.flatten_cons, List.length_append, List.length_cons] at hd hn ⊢
    obtain ⟨n, rfl⟩ : ∃ k, n = k + 1 := ⟨n - 1, by omega⟩
    have hstart : Cursor.isAtEnd ⟨first :: us ++ parts.flatten ++ rest, i, faults⟩ = false := by
      refine decide_eq_false fun hend => ?_
      rw [show first.kind = .endOfSource from hend] at hk
      exact absurd hk (by decide)
    have helse : Cursor.kindOf (parts.flatten ++ rest) ≠ .keyword .kwElse := no_else_before hbody hr
    obtain ⟨read, j, hread, halike⟩ := hs depth _ (by rw [List.length_cons]; omega) helse i faults
    obtain ⟨later, j', k, hk, hlaters, hlater⟩ :=
      ih (n := n) (by omega) (by omega) (read :: before) j
    refine ⟨read :: later, j', k, by omega, .cons halike hlaters, ?_⟩
    rw [Cursor.declarations, hstart, if_neg Bool.false_ne_true, List.append_assoc, hread]
    simpa using hlater

end Grammar

namespace Reading

open Grammar

variable {body : List Token} {eof : Token} {firstId : NodeId} {statements : List Stmt}

/-- Tokens without an end are the ones before the first end. -/
theorem eq_of_append_end {ts rest : List Token} (hb : ∀ t ∈ body, t.kind ≠ .endOfSource)
    (he : eof.kind = .endOfSource) (hts : ∀ t ∈ ts, t.kind ≠ .endOfSource)
    (hrest : Cursor.kindOf rest = .endOfSource) (h : body ++ [eof] = ts ++ rest) : ts = body := by
  induction ts generalizing body with
  | nil =>
    cases body with
    | nil => rfl
    | cons t body =>
      rw [List.nil_append, List.cons_append] at h
      rw [← h] at hrest
      exact absurd hrest (hb t (by simp))
  | cons t ts ih =>
    cases body with
    | nil =>
      obtain ⟨rfl, -⟩ := List.cons.inj h
      exact absurd he (hts eof (by simp))
    | cons u body =>
      obtain ⟨rfl, htail⟩ := List.cons.inj h
      rw [ih (fun x hx => hb x (.tail _ hx)) (fun x hx => hts x (.tail _ hx)) htail]

/-- What is read as a program is one, and its nodes have new numbers. -/
theorem program_of_ofTokens (hb : ∀ t ∈ body, t.kind ≠ .endOfSource)
    (he : eof.kind = .endOfSource)
    (h : (ofTokens (body ++ [eof]) firstId).result = .ok statements) :
    Program body statements ∧
      Numbered firstId (ofTokens (body ++ [eof]) firstId).nextId (Stmt.nodesAll statements) := by
  simp only [ofTokens] at h ⊢
  split at h
  · next hf =>
    obtain ⟨-, hread⟩ := declarations_sound _ _ _ _ (List.isEmpty_iff.1 hf)
    obtain ⟨read, ts, hl, hts, hend, hp, hn⟩ := hread (Nat.le_refl _)
    cases h
    rw [List.reverse_nil, List.nil_append] at hl
    have hrest := of_decide_eq_true hend
    rw [hl]
    rw [eq_of_append_end hb he hp.noEnd hrest hts] at hp
    exact ⟨hp, hn⟩
  · cases h

/-- After a program the rest is read as if alone, unless it begins with an `else` that the program could
take. -/
theorem ofTokens_append {rest : List Token} (h : Program body statements)
    (hr : Cursor.kindOf rest ≠ .keyword .kwElse) (firstId : NodeId) :
    ∃ first j, StmtsAlike .upToNodes first statements ∧
      (ofTokens (body ++ rest) firstId).result = (ofTokens rest j).result.map (first ++ ·) := by
  obtain ⟨parts, rfl, hparts⟩ := h.accepted
  have hlength : (parts.flatten ++ rest).length = parts.flatten.length + rest.length :=
    List.length_append
  have hd : 16 * parts.flatten.length ≤ Cursor.depthFor (parts.flatten ++ rest) := by
    unfold Cursor.depthFor
    omega
  have hn : parts.flatten.length ≤ (parts.flatten ++ rest).length := hlength ▸ Nat.le_add_right _ _
  obtain ⟨first, j, k, hk, hlike, hread⟩ := accepts_declarations hparts hr hd hn [] firstId []
  -- For the rest, the depth and the bound of the whole are larger than they need be.
  have hsame : Cursor.declarations (Cursor.depthFor (parts.flatten ++ rest)) k (first.reverse ++ [])
      ⟨rest, j, []⟩ =
        Cursor.declarations (Cursor.depthFor rest) rest.length (first.reverse ++ []) ⟨rest, j, []⟩ := by
    have hdepth : 16 * rest.length + 12 ≤ Cursor.depthFor rest := by
      unfold Cursor.depthFor
      omega
    have hle : Cursor.depthFor rest ≤ Cursor.depthFor (parts.flatten ++ rest) := by
      unfold Cursor.depthFor
      omega
    have hk' : rest.length ≤ k := by omega
    exact Cursor.declarations_settle hdepth hle (.inr (Nat.le_refl _)) (.inr hk') _
  rw [hsame, List.append_nil, Cursor.declarations_before _ _ first.reverse,
    List.reverse_reverse] at hread
  refine ⟨first, j, hlike, ?_⟩
  simp only [ofTokens, hread]
  split
  · rfl
  · rfl

/-- Every program is read, with its tree. -/
theorem ofTokens_of_program (he : eof.kind = .endOfSource) (h : Program body statements)
    (firstId : NodeId) :
    ∃ read, (ofTokens (body ++ [eof]) firstId).result = .ok read ∧
      StmtsAlike .upToNodes read statements := by
  have hr : Cursor.kindOf [eof] ≠ .keyword .kwElse := by simp [he]
  obtain ⟨first, j, hlike, hread⟩ := ofTokens_append h hr firstId
  have hend : Cursor.isAtEnd ⟨[eof], j, []⟩ = true := decide_eq_true he
  refine ⟨first, ?_, hlike⟩
  rw [hread, ofTokens, Cursor.declarations_of_atEnd hend]
  exact congrArg Except.ok (List.append_nil first)

/-- Tokens that are turned down have a fault. -/
theorem faults_ne_nil {tokens : List Token} {faults : List Diagnostic}
    (h : (ofTokens tokens firstId).result = .error faults) : faults ≠ [] := by
  simp only [ofTokens] at h
  split at h
  · cases h
  · next hf =>
    cases h
    intro hnil
    rw [List.reverse_eq_nil_iff] at hnil
    rw [hnil] at hf
    exact hf rfl

/-- Reading accepts exactly the programs of the grammar: what it gives is the tree of a derivation,
every derivation's tree is given up to the numbers of nodes, and tokens without a derivation are
turned down with at least one fault. -/
theorem ofTokens_accepts_grammar (body : List Token) (eof : Token) (firstId : NodeId)
    (hb : ∀ t ∈ body, t.kind ≠ .endOfSource) (he : eof.kind = .endOfSource) :
    (∀ statements, (ofTokens (body ++ [eof]) firstId).result = .ok statements →
      Program body statements) ∧
    (∀ statements, Program body statements →
      ∃ read, (ofTokens (body ++ [eof]) firstId).result = .ok read ∧
        StmtsAlike .upToNodes read statements) ∧
    ((¬ ∃ statements, Program body statements) →
      ∃ fault faults, (ofTokens (body ++ [eof]) firstId).result = .error (fault :: faults)) := by
  refine ⟨fun statements h => (program_of_ofTokens hb he h).1,
    fun statements h => ofTokens_of_program he h firstId, fun hnone => ?_⟩
  cases hr : (ofTokens (body ++ [eof]) firstId).result with
  | ok statements => exact absurd ⟨statements, (program_of_ofTokens hb he hr).1⟩ hnone
  | error faults =>
    obtain ⟨fault, rest, rfl⟩ := List.exists_cons_of_ne_nil (faults_ne_nil hr)
    exact ⟨fault, rest, rfl⟩

/-- The statement `nil;` is read, for the grammar derives it. -/
theorem ofTokens_accepts_nil_statement :
    (∀ t ∈ [(⟨.keyword .kwNil, "nil", 1⟩ : Token), ⟨.symbol .semicolon, ";", 1⟩],
      t.kind ≠ .endOfSource) ∧ (Token.atEnd 1).kind = .endOfSource ∧
    ∃ read, (ofTokens ([⟨.keyword .kwNil, "nil", 1⟩, ⟨.symbol .semicolon, ";", 1⟩] ++
        [.atEnd 1]) 0).result = .ok read ∧
      StmtsAlike .upToNodes read [.expression (.literal .nil)] := by
  have hb : ∀ t ∈ [(⟨.keyword .kwNil, "nil", 1⟩ : Token), ⟨.symbol .semicolon, ";", 1⟩],
      t.kind ≠ .endOfSource := by simp
  have hunary : Phrase (.operand .unary) [⟨.keyword .kwNil, "nil", 1⟩] (.literal .nil) :=
    .call (.primary (.nil rfl))
  have hexpression : Phrase .expression [⟨.keyword .kwNil, "nil", 1⟩] (.literal .nil) :=
    .operation (.tighter (p := .or) (.tighter (p := .and) (.tighter (p := .equality)
      (.tighter (p := .comparison) (.tighter (p := .term) (.tighter (p := .factor) hunary))))))
  have hprogram : Program [⟨.keyword .kwNil, "nil", 1⟩, ⟨.symbol .semicolon, ";", 1⟩]
      [.expression (.literal .nil)] :=
    .moreDeclarations (.statement (.expression hexpression rfl)) .noDeclarations
  exact ⟨hb, rfl, (ofTokens_accepts_grammar _ (.atEnd 1) 0 hb rfl).2.1 _ hprogram⟩

end Reading

end Lox
