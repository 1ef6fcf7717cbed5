import Lox.Proofs.Token.Lines
import Lox.Syntax.Program

/-!
# Faults of a text

A text is turned down for everything that is wrong with its characters and with its tokens. Both are
reported in one list by line, and nothing is lost, reported twice or moved within a line.

## Implementation notes

Faults of the characters alone are not sorted: their lines never decrease. Faults of the tokens come in no
order of lines, since a wrong target of an assignment is noted behind the faults in the assigned value.
-/

namespace Lox

namespace Scan

/-- The lines of the faults never decrease. -/
theorem pairwise_line_faults (source : String) :
    (ofText source).faults.Pairwise (·.line ≤ ·.line) := by
  refine List.Pairwise.filterMap _ ?_ (Source.pairwise_line_itemsFrom 1 source.toList)
  intro first second hline fault hfault other hother
  cases first with
  | ok t => cases hfault
  | error first =>
    cases second with
    | ok t => cases hother
    | error second =>
      cases hfault
      cases hother
      exact hline

end Scan

/-- Two lists of faults in one: each fault as often as in the two lists, in the order of lines, and on each
line those of the first list as they are there and then those of the second. -/
structure MergedByLine (first second merged : List Diagnostic) : Prop where
  perm : merged.Perm (first ++ second)
  ordered : merged.Pairwise (·.line ≤ ·.line)
  on_line : ∀ line : Nat, merged.filter (·.line = line) =
    first.filter (·.line = line) ++ second.filter (·.line = line)

/-- A list in order is merged with nothing. -/
theorem MergedByLine.of_ordered {faults : List Diagnostic}
    (h : faults.Pairwise (·.line ≤ ·.line)) : MergedByLine faults [] faults where
  perm := by rw [List.append_nil]
  ordered := h
  on_line line := by rw [List.filter_nil, List.append_nil]

namespace Reading

variable {α : Type}

/-- What is wrong with a text that is turned down. -/
def faults (reading : Reading α) : List Diagnostic :=
  match reading.result with
  | .ok _ => []
  | .error faults => faults

/-- Tokens are turned down for a reason. -/
theorem ofTokens_cases (tokens : List Token) (firstId : NodeId) :
    (∃ statements, (ofTokens tokens firstId).result = .ok statements) ∨
      ∃ faults, faults ≠ [] ∧ (ofTokens tokens firstId).result = .error faults := by
  simp only [ofTokens]
  split
  · exact .inl ⟨_, rfl⟩
  · next hfaults =>
    refine .inr ⟨_, ?_, rfl⟩
    simpa using hfaults

section OfSource

variable {source : String} {firstId : NodeId} {tree : List Stmt}

theorem ofSource_of_ok (h : (ofTokens (Scan.ofText source).tokens firstId).result = .ok tree) :
    (ofSource source firstId).result =
      if (Scan.ofText source).faults.isEmpty then .ok tree
      else .error (Scan.ofText source).faults := by
  simp only [ofSource, h]

/-- The faults of a text that is turned down, in what is no token and in the tokens. -/
theorem ofSource_of_error {faults : List Diagnostic}
    (h : (ofTokens (Scan.ofText source).tokens firstId).result = .error faults) :
    (ofSource source firstId).result = .error (byLine ((Scan.ofText source).faults ++ faults)) := by
  simp only [ofSource, h]

end OfSource

theorem faults_of_ok {reading : Reading α} {tree : α} (h : reading.result = .ok tree) :
    reading.faults = [] := by
  rw [faults, h]

theorem faults_of_error {reading : Reading α} {found : List Diagnostic}
    (h : reading.result = .error found) : reading.faults = found := by
  rw [faults, h]

/-! ### Order of lines -/

theorem line_trans (a b c : Diagnostic) (hab : decide (a.line ≤ b.line) = true)
    (hbc : decide (b.line ≤ c.line) = true) : decide (a.line ≤ c.line) = true := by
  rw [decide_eq_true_eq] at *
  exact Nat.le_trans hab hbc

theorem line_total (a b : Diagnostic) :
    (decide (a.line ≤ b.line) || decide (b.line ≤ a.line)) = true := by
  simpa using Nat.le_total a.line b.line

theorem pairwise_byLine (faults : List Diagnostic) :
    (byLine faults).Pairwise (·.line ≤ ·.line) := by
  have h := List.pairwise_mergeSort line_trans line_total faults
  simp only [decide_eq_true_eq] at h
  exact h

/-- Putting faults in order moves none within a line. -/
theorem filter_byLine (faults : List Diagnostic) (line : Nat) :
    (byLine faults).filter (·.line = line) = faults.filter (·.line = line) := by
  have hsame : (faults.filter (·.line = line)).Pairwise
      fun a b => decide (a.line ≤ b.line) = true := by
    refine List.pairwise_of_forall_mem_list fun a ha b hb => ?_
    have hline := (of_decide_eq_true (List.mem_filter.1 ha).2).trans
      (of_decide_eq_true (List.mem_filter.1 hb).2).symm
    exact decide_eq_true (Nat.le_of_eq hline)
  have hkept := List.sublist_mergeSort line_trans line_total hsame List.filter_sublist
  have hsub := hkept.filter (·.line = line)
  rw [List.filter_filter] at hsub
  simp only [Bool.and_self] at hsub
  have hperm := (List.mergeSort_perm faults fun a b => a.line ≤ b.line).filter (·.line = line)
  exact (hsub.eq_of_length hperm.length_eq.symm).symm

/-- Putting the faults of two lists in order merges them. -/
theorem mergedByLine_byLine (first second : List Diagnostic) :
    MergedByLine first second (byLine (first ++ second)) where
  perm := List.mergeSort_perm _ _
  ordered := pairwise_byLine _
  on_line line := by rw [filter_byLine, List.filter_append]

/-- The faults of both parts of the front end are reported completely and in order. A text is turned down
if and only if scanning it finds a fault or the tokens found are turned down; and the list of what it is
turned down for has every fault of either part, as often as it is found, in the order of lines, with those
of scanning first on each line and those of each part as they were found there. -/
theorem ofSource_merges_faults (source : String) (firstId : NodeId) :
    ((∃ faults, (ofSource source firstId).result = .error faults) ↔
      (Scan.ofText source).faults ≠ [] ∨
        (ofTokens (Scan.ofText source).tokens firstId).faults ≠ []) ∧
    ∀ faults, (ofSource source firstId).result = .error faults →
      MergedByLine (Scan.ofText source).faults
        (ofTokens (Scan.ofText source).tokens firstId).faults faults := by
  rcases ofTokens_cases (Scan.ofText source).tokens firstId with
    ⟨statements, hread⟩ | ⟨found, hne, hread⟩
  · rw [faults_of_ok hread, ofSource_of_ok hread]
    split
    · next hscan =>
      refine ⟨⟨nofun, ?_⟩, nofun⟩
      rintro (hne | hne)
      · exact absurd (List.isEmpty_iff.1 hscan) hne
      · exact absurd rfl hne
    · next hscan =>
      refine ⟨⟨fun _ => .inl fun hnone => hscan (List.isEmpty_iff.2 hnone), fun _ => ⟨_, rfl⟩⟩, ?_⟩
      rintro _ ⟨⟩
      exact .of_ordered (Scan.pairwise_line_faults source)
  · rw [faults_of_error hread, ofSource_of_error hread]
    refine ⟨⟨fun _ => .inr hne, fun _ => ⟨_, rfl⟩⟩, ?_⟩
    rintro _ ⟨⟩
    exact mergedByLine_byLine _ _

/-- Two wrong targets, of which the later one is noted first, and a wrong character on its line. -/
theorem ofSource_merges_faults_targets :
    (Scan.ofText "1 =\n2 = @ 3;").faults = [⟨.lexical (.unexpectedCharacter '@'), 2⟩] ∧
    (ofTokens (Scan.ofText "1 =\n2 = @ 3;").tokens 0).faults =
      [⟨.grammatical .invalidAssignmentTarget, 2⟩, ⟨.grammatical .invalidAssignmentTarget, 1⟩] ∧
    ∃ faults, (ofSource "1 =\n2 = @ 3;" 0).result = .error faults ∧
      faults.Pairwise (·.line ≤ ·.line) ∧
      faults.filter (·.line = 1) = [⟨.grammatical .invalidAssignmentTarget, 1⟩] ∧
      faults.filter (·.line = 2) = [⟨.lexical (.unexpectedCharacter '@'), 2⟩,
        ⟨.grammatical .invalidAssignmentTarget, 2⟩] := by
  have hscan : (Scan.ofText "1 =\n2 = @ 3;").faults =
      [⟨.lexical (.unexpectedCharacter '@'), 2⟩] := by decide +kernel
  have hread : (ofTokens (Scan.ofText "1 =\n2 = @ 3;").tokens 0).faults =
      [⟨.grammatical .invalidAssignmentTarget, 2⟩,
        ⟨.grammatical .invalidAssignmentTarget, 1⟩] := by decide +kernel
  have hmerges := ofSource_merges_faults "1 =\n2 = @ 3;" 0
  rw [hscan, hread] at hmerges
  obtain ⟨faults, herror⟩ := hmerges.1.2 (.inl (List.cons_ne_nil _ _))
  have hmerged := hmerges.2 faults herror
  exact ⟨hscan, hread, faults, herror, hmerged.ordered, hmerged.on_line 1, hmerged.on_line 2⟩

end Reading

end Lox
