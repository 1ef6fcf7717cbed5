import Lox.Proofs.Grammar.Program
import Lox.Proofs.Resolution.Ordinary

/-!
# The numbers that reading takes

Whatever tokens are read, and however the reading ends, the numbers taken are not given back, and
the nodes of a tree that it gives have numbers of their own among those that it took.
-/

namespace Lox

open Grammar

namespace Reading

variable {α : Type} {tokens : List Token} {firstId : NodeId}

/-- No number is given back, and the tree has distinct new numbers. -/
structure Fresh (reading : Reading α) (firstId : NodeId) (nodes : α → List NodeId) : Prop where
  le : firstId ≤ reading.nextId
  numbered : ∀ tree, reading.result = .ok tree → Numbered firstId reading.nextId (nodes tree)

theorem fresh_ofTokens (tokens : List Token) (firstId : NodeId) :
    (ofTokens tokens firstId).Fresh firstId Stmt.nodesAll := by
  refine ⟨nextId_le_declarations _ _ [] ⟨tokens, firstId, []⟩, fun statements h => ?_⟩
  simp only [ofTokens] at h ⊢
  split at h
  · next hf =>
    obtain ⟨-, hread⟩ := declarations_sound _ _ _ _ (List.isEmpty_iff.1 hf)
    obtain ⟨read, ts, hl, -, -, -, hnumbered⟩ := hread (Nat.le_refl _)
    cases h
    rw [List.reverse_nil, List.nil_append] at hl
    rw [hl]
    exact hnumbered
  · cases h

theorem nextId_le_expressionOfTokens (tokens : List Token) (firstId : NodeId) :
    firstId ≤ (expressionOfTokens tokens firstId).nextId := by
  have hread := (readsExpressions (Cursor.depthFor tokens)).expression ⟨tokens, firstId, []⟩
  unfold Rule.Reads at hread
  cases ho : Rule.expression (Cursor.depthFor tokens) ⟨tokens, firstId, []⟩ with
  | ok e after =>
    rw [ho] at hread
    simp only [expressionOfTokens, ho]
    exact hread.1
  | error fault after =>
    rw [ho] at hread
    simp only [expressionOfTokens, ho]
    exact hread
  | exhausted =>
    simp only [expressionOfTokens, ho]
    exact Nat.le_refl _

/-- What is read as an expression is one, up to the end of the source, and its nodes have new numbers.
-/
theorem phrase_of_expressionOfTokens {e : Expr}
    (h : (expressionOfTokens tokens firstId).result = .ok e) :
    (∃ ts rest, tokens = ts ++ rest ∧ Cursor.kindOf rest = .endOfSource ∧ Phrase .expression ts e) ∧
      Numbered firstId (expressionOfTokens tokens firstId).nextId e.nodes := by
  have hread := (readsExpressions (Cursor.depthFor tokens)).expression ⟨tokens, firstId, []⟩
  unfold Rule.Reads at hread
  cases ho : Rule.expression (Cursor.depthFor tokens) ⟨tokens, firstId, []⟩ with
  | ok read after =>
    rw [ho] at hread
    obtain ⟨-, ts, noted, htokens, hfaults, hphrase⟩ := hread
    simp only [expressionOfTokens, ho] at h ⊢
    split at h
    · next hend =>
      split at h
      · next hnone =>
        cases h
        rw [List.getLast?_eq_none_iff, hfaults, List.append_eq_nil_iff] at hnone
        obtain ⟨hphrase, hnumbered⟩ := hphrase hnone.1
        exact ⟨⟨ts, after.tokens, htokens, of_decide_eq_true hend, hphrase⟩, hnumbered⟩
      · cases h
    · cases h
  | error fault after =>
    simp only [expressionOfTokens, ho] at h
    cases h
  | exhausted =>
    simp only [expressionOfTokens, ho] at h
    cases h

theorem fresh_expressionOfTokens (tokens : List Token) (firstId : NodeId) :
    (expressionOfTokens tokens firstId).Fresh firstId Expr.nodes :=
  ⟨nextId_le_expressionOfTokens tokens firstId, fun _ h => (phrase_of_expressionOfTokens h).2⟩

theorem fresh_expressionOfSource (source : String) (firstId : NodeId) :
    (expressionOfSource source firstId).Fresh firstId Expr.nodes := by
  simp only [expressionOfSource]
  split
  · exact fresh_expressionOfTokens _ _
  · exact ⟨Nat.le_refl _, nofun⟩

end Reading

/-- A source text that is read as an expression assigns to ordinary names. -/
theorem Reading.ordinary_of_expressionOfSource {source : String} {firstId : NodeId} {e : Expr}
    (h : (expressionOfSource source firstId).result = .ok e) : e.Ordinary := by
  obtain ⟨body, line, htokens, hfound⟩ := Scan.tokens_eq_append_end source
  simp only [expressionOfSource] at h
  split at h
  · obtain ⟨⟨ts, rest, hts, -, hphrase⟩, -⟩ := phrase_of_expressionOfTokens h
    refine hphrase.ordinary fun t ht => ?_
    have hmem : t ∈ body ++ [.atEnd line] := by
      rw [← htokens, hts]
      exact List.mem_append_left _ ht
    rcases List.mem_append.1 hmem with hmem | hmem
    · exact hfound t hmem
    · rw [List.mem_singleton.1 hmem] at ht
      exact absurd rfl (hphrase.noEnd _ ht)
  · cases h

end Lox
