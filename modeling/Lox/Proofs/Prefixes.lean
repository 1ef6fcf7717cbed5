import Lox.Proofs.Faults
import Lox.Proofs.Grammar.Lines
import Lox.Proofs.Session.Likeness
import Lox.Proofs.Syntax.Equality

/-!
# Texts before texts

A text that is read without a fault does not disturb what comes after it. The text on the lines below it
is read as if alone, whether it is in order or not, with its lines counted from further up.

## Implementation notes

What is read before a token shows in reading only in the depth that the recursion is allowed and in the
numbers of nodes. A larger depth changes nothing, see `Cursor.declarations_settle`. A program is read up
to its last token, unless there is an `else` that belongs to its last statement.
-/

namespace Lox

open Grammar

/-- The second line is so many lines further down. -/
abbrev Below (lines : Nat) : Nat → Nat → Prop := fun line below => below = line + lines

theorem Token.relined_later (lines : Nat) (tokens : List Token) :
    List.Forall₂ (Token.Relined (Below lines)) tokens (tokens.map (Token.later lines)) := by
  induction tokens with
  | nil => exact .nil
  | cons t rest ih => exact .cons (.intro t.kind t.text rfl) ih

theorem Diagnostic.eq_later_of_relined {lines : Nat} {faults others : List Diagnostic}
    (h : List.Forall₂ (Diagnostic.Relined (Below lines)) faults others) :
    others = faults.map (Diagnostic.later lines) := by
  induction h with
  | nil => rfl
  | cons hfirst _ ih =>
    cases hfirst with
    | intro cause hline => rw [hline, ih, List.map_cons, Diagnostic.later]

namespace Reading

variable {a b : String} {i j k : NodeId} {tree : List Stmt}

/-- Faults that move down together stay in order. -/
theorem byLine_later (lines : Nat) (faults : List Diagnostic) :
    byLine (faults.map (Diagnostic.later lines)) = (byLine faults).map (Diagnostic.later lines) := by
  symm
  apply List.map_mergeSort
  intro x _ y _
  exact decide_eq_decide.2 Nat.add_le_add_iff_right.symm

/-- The tokens of both texts are read as the first tree, up to the numbers of nodes, and then as those of
the second text alone. -/
theorem ofTokens_joined (ha : (ofSource a i).result = .ok tree)
    (hb : ∀ t ∈ (Scan.ofText b).tokens.head?, t.kind ≠ .keyword .kwElse) (j k : NodeId) :
    ∃ first second, StmtsAlike .upToNodes first tree ∧
      (ofTokens (Scan.ofText (a ++ "\n" ++ b)).tokens k).result = second.map (first ++ ·) ∧
      Relined (Below (Source.newlines a.toList + 1)) (ofTokens (Scan.ofText b).tokens j).result
        second := by
  obtain ⟨body, hfinds, hprogram⟩ := Session.finds_of_ofSource ha
  obtain ⟨htokens, -⟩ := hfinds.before b
  obtain ⟨found, line, hend, -⟩ := Scan.tokens_eq_append_end b
  let lines := Source.newlines a.toList + 1
  have helse : Cursor.kindOf ((Scan.ofText b).tokens.map (Token.later lines)) ≠ .keyword .kwElse := by
    cases hall : (Scan.ofText b).tokens with
    | nil => nofun
    | cons t rest =>
      rw [hall] at hb
      exact hb t rfl
  obtain ⟨first, j', hfirst, hread⟩ := ofTokens_append hprogram helse k
  have hends : ∃ t ∈ (Scan.ofText b).tokens, t.kind = .endOfSource :=
    ⟨.atEnd line, hend ▸ List.mem_append_right _ (List.mem_singleton_self _), rfl⟩
  have hlater := relined_ofTokens (Token.relined_later lines (Scan.ofText b).tokens) hends j j'
  exact ⟨first, _, hfirst, htokens ▸ hread, hlater⟩

/-- A text without faults never disturbs what follows. When a first text is read without a fault, then any
second text that does not begin with `else`, on the lines below it, is read as it is read alone, but for
the numbers of nodes and with all lines moved down: its statements after those of the first text; or, if
it is turned down, the same faults in the same order, and no others. -/
theorem clean_prefix_disturbs_nothing (ha : (ofSource a i).result = .ok tree)
    (hb : ∀ t ∈ (Scan.ofText b).tokens.head?, t.kind ≠ .keyword .kwElse) (j k : NodeId) :
    (∀ others, (ofSource b j).result = .ok others → ∃ first rest,
      (ofSource (a ++ "\n" ++ b) k).result = .ok (first ++ rest) ∧
      StmtsAlike .upToNodes first tree ∧
      StmtsAlike (.lines (Below (Source.newlines a.toList + 1))) others rest) ∧
    ∀ faults, (ofSource b j).result = .error faults →
      (ofSource (a ++ "\n" ++ b) k).result =
        .error (faults.map (Diagnostic.later (Source.newlines a.toList + 1))) := by
  obtain ⟨first, second, hfirst, hread, hrelined⟩ := ofTokens_joined ha hb j k
  obtain ⟨body, hfinds, -⟩ := Session.finds_of_ofSource ha
  obtain ⟨-, hfaults⟩ := hfinds.before b
  generalize hresult : (ofTokens (Scan.ofText b).tokens j).result = result at hrelined
  cases hrelined with
  | @read others rest hrest =>
    rw [ofSource_of_ok hresult, ofSource_of_ok hread, hfaults, List.isEmpty_map]
    split
    · refine ⟨?_, nofun⟩
      rintro _ ⟨⟩
      exact ⟨first, rest, rfl, hfirst, hrest⟩
    · refine ⟨nofun, ?_⟩
      rintro _ ⟨⟩
      rfl
  | @turnedDown faults moved hmoved =>
    rw [ofSource_of_error hresult, ofSource_of_error hread, hfaults,
      Diagnostic.eq_later_of_relined hmoved, ← List.map_append, byLine_later]
    refine ⟨nofun, ?_⟩
    rintro _ ⟨⟩
    rfl

/-- A text over two lines before a text with a fault in each part of the front end. -/
theorem clean_prefix_disturbs_nothing_faults :
    (∃ tree, (ofSource "print\n1;" 0).result = .ok tree) ∧
    (∀ t ∈ (Scan.ofText "var ; ?").tokens.head?, t.kind ≠ .keyword .kwElse) ∧
    (ofSource ("print\n1;" ++ "\n" ++ "var ; ?") 0).result =
      .error [⟨.lexical (.unexpectedCharacter '?'), 3⟩, ⟨.grammatical (.expectedName .ofVariable), 3⟩] := by
  have hread : ((ofSource "print\n1;" 0).result.toOption).isSome = true := by decide +kernel
  have helse : ∀ t ∈ (Scan.ofText "var ; ?").tokens.head?, t.kind ≠ .keyword .kwElse := by
    decide +kernel
  have hscan : (Scan.ofText "var ; ?").faults = [⟨.lexical (.unexpectedCharacter '?'), 1⟩] := by
    decide +kernel
  have hparse : (ofTokens (Scan.ofText "var ; ?").tokens 0).result =
      .error [⟨.grammatical (.expectedName .ofVariable), 1⟩] := by decide +kernel
  have herror : (ofSource "var ; ?" 0).result =
      .error [⟨.lexical (.unexpectedCharacter '?'), 1⟩, ⟨.grammatical (.expectedName .ofVariable), 1⟩] := by
    rw [ofSource_of_error hparse, hscan]
    exact congrArg Except.error (List.mergeSort_of_pairwise (by decide))
  cases hresult : (ofSource "print\n1;" 0).result with
  | error faults =>
    rw [hresult] at hread
    cases hread
  | ok tree =>
    have hlater := (clean_prefix_disturbs_nothing hresult helse 0 0).2 _ herror
    exact ⟨⟨tree, rfl⟩, helse, hlater⟩

end Reading

end Lox
