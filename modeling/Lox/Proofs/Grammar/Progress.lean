import Lox.Proofs.Grammar.Courses
import Lox.Proofs.Grammar.Settling

/-!
# Progress of reading

Reading moves forward through the tokens and does not leave them. The places at which it looks are in
order and in range, and every pass of the loop at the top level gets past a token, in order or with a
fault. So there are no more passes than there are tokens before the end.

## Implementation notes

A cursor has the tokens that are left, so its place is given by how many of the whole list are not. What
is shown of courses is shown of their steps: only `advance` moves, by one token and not past the end.
-/

namespace Lox

open Procedure

namespace Cursor

/-- The place of the token at hand in the list that is read. -/
def position (tokens : List Token) (c : Cursor) : Nat := tokens.length - c.tokens.length

/-- The cursor stands at a token of the list, with the tokens from there on left. -/
def Within (tokens : List Token) (c : Cursor) : Prop :=
  c.tokens <:+ tokens ∧ c.tokens ≠ []

variable {tokens body : List Token} {eof : Token} {c d e : Cursor}

namespace Within

theorem position_eq {before : List Token} (h : tokens = before ++ c.tokens) :
    c.position tokens = before.length := by
  rw [position, h, List.length_append, Nat.add_sub_cancel]

theorem position_add (h : c.Within tokens) : c.position tokens + c.tokens.length = tokens.length :=
  Nat.sub_add_cancel h.1.length_le

theorem position_lt (h : c.Within tokens) : c.position tokens < tokens.length := by
  have hadd := h.position_add
  have hpos := List.length_pos_iff.2 h.2
  omega

/-- The token at hand is the one at that place of the list. -/
theorem getElem?_position (h : c.Within tokens) : tokens[c.position tokens]? = some c.current := by
  obtain ⟨⟨before, htokens⟩, hne⟩ := h
  rw [position_eq htokens.symm, ← htokens, List.getElem?_append_right (Nat.le_refl _), Nat.sub_self,
    current]
  cases hc : c.tokens with
  | nil => exact absurd hc hne
  | cons token rest => rfl

/-- A cursor at the end is past every one before it that is not. -/
theorem position_lt_of_atEnd (hc : c.Within tokens) (hd : d.Within tokens)
    (hle : c.position tokens ≤ d.position tokens) (hend : c.isAtEnd = false) (hend' : d.isAtEnd = true) :
    c.position tokens < d.position tokens := by
  refine Nat.lt_of_le_of_ne hle fun heq => ?_
  have hcurrent : c.current = d.current := by
    rw [← Option.some_inj, ← hc.getElem?_position, heq, hd.getElem?_position]
  rw [isAtEnd, hcurrent, ← isAtEnd, hend'] at hend
  cases hend

/-- Past the last token before the end there is the end. -/
theorem advanced (he : eof.kind = .endOfSource)
    (h : c.Within (body ++ [eof])) : c.advanced.Within (body ++ [eof]) := by
  obtain ⟨hsuffix, hne⟩ := h
  unfold Cursor.advanced
  split
  · exact ⟨hsuffix, hne⟩
  · next hend =>
    refine ⟨(List.tail_suffix _).trans hsuffix, fun htail => hend ?_⟩
    -- The only token left is the last one of the list.
    obtain ⟨token, htoken⟩ : ∃ token, c.tokens = [token] := by
      cases hc : c.tokens with
      | nil => exact absurd hc hne
      | cons token rest => exact ⟨token, by rw [hc] at htail; rw [show rest = [] from htail]⟩
    have hlast : token = eof := by
      obtain ⟨before, htokens⟩ := hsuffix
      rw [htoken] at htokens
      exact (List.append_inj_right' htokens rfl |> List.singleton_inj.1)
    rw [isAtEnd, current, htoken, hlast]
    exact decide_eq_true he

end Within

theorem position_le_advanced (tokens : List Token) (c : Cursor) :
    c.position tokens ≤ c.advanced.position tokens := by
  have hlength : c.advanced.tokens.length ≤ c.tokens.length := by
    unfold advanced
    split
    · exact Nat.le_refl _
    · exact (List.tail_suffix _).length_le
  unfold position
  omega

/-- From `c` to `d` the cursors of the path stand at tokens of the list, and none stands before an earlier
one. -/
structure Forward (tokens : List Token) (c : Cursor) (path : List Cursor) (d : Cursor) : Prop where
  within : ∀ e ∈ path, e.Within tokens ∧ c.position tokens ≤ e.position tokens ∧
    e.position tokens ≤ d.position tokens
  ordered : (path.map (position tokens)).Pairwise (· ≤ ·)
  last : d.Within tokens
  le : c.position tokens ≤ d.position tokens

namespace Forward

variable {path path' : List Cursor}

theorem refl (h : c.Within tokens) : Forward tokens c [] c :=
  ⟨nofun, .nil, h, Nat.le_refl _⟩

/-- A look at the token at hand, and a step of the cursor without one. -/
theorem step (h : c.Within tokens) (hd : d.Within tokens)
    (hle : c.position tokens ≤ d.position tokens) : Forward tokens c [c] d := by
  refine ⟨fun e he => ?_, List.pairwise_singleton _ _, hd, hle⟩
  rw [List.mem_singleton.1 he]
  exact ⟨h, Nat.le_refl _, hle⟩

/-- The numbers and the faults of a cursor do not matter. -/
theorem congr_last (h : Forward tokens c path d) (hd : e.tokens = d.tokens) :
    Forward tokens c path e := by
  have hposition : e.position tokens = d.position tokens := by rw [position, position, hd]
  refine ⟨?_, h.ordered, ?_, ?_⟩
  · rw [hposition]
    exact h.within
  · unfold Within
    rw [hd]
    exact h.last
  · rw [hposition]
    exact h.le

theorem trans (h : Forward tokens c path d) (k : Forward tokens d path' e) :
    Forward tokens c (path ++ path') e := by
  refine ⟨fun x hx => ?_, ?_, k.last, Nat.le_trans h.le k.le⟩
  · rcases List.mem_append.1 hx with hx | hx
    · obtain ⟨hwithin, hlow, hhigh⟩ := h.within x hx
      exact ⟨hwithin, hlow, Nat.le_trans hhigh k.le⟩
    · obtain ⟨hwithin, hlow, hhigh⟩ := k.within x hx
      exact ⟨hwithin, Nat.le_trans h.le hlow, hhigh⟩
  · rw [List.map_append, List.pairwise_append]
    refine ⟨h.ordered, k.ordered, ?_⟩
    simp only [List.forall_mem_map]
    intro x hx y hy
    exact Nat.le_trans (h.within x hx).2.2 (k.within y hy).2.1

end Forward

end Cursor

open Cursor

/-- Every course moves forward, because its steps do. -/
theorem Rule.Course.forward {body : List Token} {eof : Token} (he : eof.kind = .endOfSource) {α : Type}
    {x : Rule α} {c : Cursor} {path : List Cursor} {o : Outcome Cursor Diagnostic α}
    (h : Course x c path o) (hc : c.Within (body ++ [eof])) :
    match o with
    | .ok _ d | .error _ d => Forward (body ++ [eof]) c path d
    | .exhausted => False := by
  induction h with
  | pure | fail => exact .refl hc
  | look => exact .step hc hc (Nat.le_refl _)
  | advance c => exact .step hc (hc.advanced he) (position_le_advanced _ c)
  | freshId | note => exact (Forward.refl hc).congr_last rfl
  | stop _ hx => exact hx hc
  | @bind _ _ _ _ _ d _ _ _ o _ _ hx hf =>
    have hx := hx hc
    have hf := hf hx.last
    cases o with
    | ok b e => exact hx.trans hf
    | error fault e => exact hx.trans hf
    | exhausted => exact hf

/-! ### Starting again after a fault -/

namespace Cursor

variable {body : List Token} {eof : Token} {c d : Cursor} {path : List Cursor} {before : Token.Kind}

/-- Whether reading may start again here, when a token of kind `before` has just been dropped. -/
def Resumes (before : Token.Kind) (c : Cursor) : Prop :=
  c.isAtEnd = true ∨ before = .symbol .semicolon ∨ beginsStatement c.current.kind = true

/-- The course of the search for the next statement, when a token of kind `before` has just been
dropped. -/
inductive Skips : Token.Kind → Cursor → List Cursor → Cursor → Prop
  | found {before : Token.Kind} {c : Cursor} (h : Resumes before c) : Skips before c [c] c
  | dropped {before : Token.Kind} {c d : Cursor} {path : List Cursor} (h : ¬ Resumes before c)
    (rest : Skips c.current.kind c.advanced path d) : Skips before c (c :: path) d

theorem fromBoundary_of_resumes (h : Resumes before c) :
    { c with tokens := fromBoundary before c.tokens } = c := by
  obtain ⟨tokens, nextId, faults⟩ := c
  cases tokens with
  | nil => rfl
  | cons token rest =>
    have hstop : (token.kind = .endOfSource || before = .symbol .semicolon ||
        beginsStatement token.kind) = true := by
      simpa [Resumes, isAtEnd, current, or_assoc] using h
    rw [fromBoundary, if_pos hstop]

theorem fromBoundary_of_not_resumes (h : ¬ Resumes before c) :
    { c with tokens := fromBoundary before c.tokens } =
      { c.advanced with tokens := fromBoundary c.current.kind c.advanced.tokens } := by
  have hend : ¬ c.isAtEnd = true := fun hend => h (.inl hend)
  rw [advanced, if_neg hend]
  obtain ⟨tokens, nextId, faults⟩ := c
  cases tokens with
  | nil => exact absurd rfl hend
  | cons token rest =>
    have hstop : ¬ (token.kind = .endOfSource || before = .symbol .semicolon ||
        beginsStatement token.kind) = true := by
      simpa [Resumes, isAtEnd, current, or_assoc] using h
    simp only [fromBoundary, if_neg hstop]
    rfl

theorem Skips.eq_fromBoundary (h : Skips before c path d) :
    d = { c with tokens := fromBoundary before c.tokens } := by
  induction h with
  | found h => exact (fromBoundary_of_resumes h).symm
  | dropped h _ ih => exact ih.trans (fromBoundary_of_not_resumes h).symm

theorem exists_skips (before : Token.Kind) (c : Cursor) : ∃ path d, Skips before c path d := by
  induction hn : c.tokens.length generalizing before c with
  | zero =>
    have hend : c.isAtEnd = true := by
      rw [isAtEnd, current, List.length_eq_zero_iff.1 hn]
      rfl
    exact ⟨[c], c, .found (.inl hend)⟩
  | succ n ih =>
    by_cases h : Resumes before c
    · exact ⟨[c], c, .found h⟩
    · have hend : c.isAtEnd = false := Bool.eq_false_iff.2 fun hend => h (.inl hend)
      have hlength : c.advanced.tokens.length = n := by
        have htail := length_tail_of_not_atEnd hend
        simp only [advanced, hend, Bool.false_eq_true, if_false]
        omega
      obtain ⟨path, d, hskips⟩ := ih c.current.kind c.advanced hlength
      exact ⟨c :: path, d, .dropped h hskips⟩

theorem Skips.forward (he : eof.kind = .endOfSource) (h : Skips before c path d)
    (hc : c.Within (body ++ [eof])) : Forward (body ++ [eof]) c path d := by
  induction h with
  | found => exact .step hc hc (Nat.le_refl _)
  | @dropped _ c _ _ _ _ ih =>
    exact (Forward.step hc (hc.advanced he) (position_le_advanced _ c)).trans (ih (hc.advanced he))

/-- The course of starting again: the token at hand is dropped, unless it is the end. -/
inductive Synchronizes (c : Cursor) : List Cursor → Cursor → Prop
  | atEnd (h : c.isAtEnd = true) : Synchronizes c [c] c
  | dropped {path : List Cursor} {d : Cursor} (h : c.isAtEnd = false)
    (hskips : Skips c.current.kind c.advanced path d) : Synchronizes c (c :: path) d

theorem Synchronizes.eq_synchronized (h : Synchronizes c path d) : d = c.synchronized := by
  cases h with
  | atEnd h => exact (if_pos h).symm
  | dropped h hskips =>
    have hadvanced : c.advanced = { c with tokens := c.tokens.tail } := by
      rw [advanced, h, if_neg Bool.false_ne_true]
    rw [hskips.eq_fromBoundary, synchronized, h, if_neg Bool.false_ne_true, hadvanced]

theorem exists_synchronizes (c : Cursor) : ∃ path d, Synchronizes c path d := by
  cases h : c.isAtEnd with
  | true => exact ⟨[c], c, .atEnd h⟩
  | false =>
    obtain ⟨path, d, hskips⟩ := exists_skips c.current.kind c.advanced
    exact ⟨c :: path, d, .dropped h hskips⟩

theorem Synchronizes.forward (he : eof.kind = .endOfSource) (h : Synchronizes c path d)
    (hc : c.Within (body ++ [eof])) : Forward (body ++ [eof]) c path d := by
  cases h with
  | atEnd => exact .step hc hc (Nat.le_refl _)
  | dropped _ hskips =>
    exact (Forward.step hc (hc.advanced he) (position_le_advanced _ c)).trans
      (hskips.forward he (hc.advanced he))

end Cursor

/-! ### The loop at the top level -/

/-- One pass of the loop: where it began, where it looked, what came of it, and where it left off. -/
structure Pass where
  before : Cursor
  path : List Cursor
  result : Except Diagnostic Stmt
  after : Cursor

namespace Pass

def statement? (p : Pass) : Option Stmt :=
  match p.result with
  | .ok s => some s
  | .error _ => none

/-- The fault that ended the declaration at hand. -/
def fault? (p : Pass) : Option Diagnostic :=
  match p.result with
  | .ok _ => none
  | .error fault => some fault

end Pass

/-- The passes of the loop from one cursor to the other, at which the tokens end. Each pass looks whether
the end has come before it begins a declaration. -/
inductive Passes (depth : Nat) : Cursor → List Pass → Cursor → Prop
  | ended {c : Cursor} (h : c.isAtEnd = true) : Passes depth c [] c
  | read {c d e : Cursor} {path : List Cursor} {s : Stmt} {passes : List Pass}
    (h : c.isAtEnd = false) (hcourse : Rule.Course (Rule.declaration depth) c path (.ok s d))
    (rest : Passes depth d passes e) : Passes depth c (⟨c, c :: path, .ok s, d⟩ :: passes) e
  | unwound {c d k e : Cursor} {path path' : List Cursor} {fault : Diagnostic} {passes : List Pass}
    (h : c.isAtEnd = false) (hcourse : Rule.Course (Rule.declaration depth) c path (.error fault d))
    (hskips : Synchronizes { d with faults := fault :: d.faults } path' k)
    (rest : Passes depth k passes e) :
    Passes depth c (⟨c, c :: (path ++ path'), .error fault, k⟩ :: passes) e

namespace Passes

variable {body : List Token} {eof : Token} {depth n : Nat} {c e : Cursor} {passes : List Pass}

theorem isAtEnd (h : Passes depth c passes e) : e.isAtEnd = true := by
  induction h with
  | ended h => exact h
  | read _ _ _ ih | unwound _ _ _ _ ih => exact ih

/-- A declaration that is read passes a token. -/
theorem length_lt_of_read {d : Cursor} {path : List Cursor} {s : Stmt}
    (hdepth : 16 * c.tokens.length + 12 ≤ depth)
    (hcourse : Rule.Course (Rule.declaration depth) c path (.ok s d)) :
    d.tokens.length + 1 ≤ c.tokens.length := by
  have hsettles := ((Grammar.statementsSettle (Nat.le_refl depth)).declaration c hdepth).2
  rw [hcourse.apply_eq] at hsettles
  exact hsettles

/-- After a fault the end comes next, or a token has been passed. -/
theorem atEnd_or_lt_of_unwound {d k : Cursor} {path path' : List Cursor} {fault : Diagnostic}
    (hdepth : 16 * c.tokens.length + 12 ≤ depth)
    (hcourse : Rule.Course (Rule.declaration depth) c path (.error fault d))
    (hskips : Synchronizes { d with faults := fault :: d.faults } path' k) :
    (k.isAtEnd = true ∨ k.tokens.length + 1 ≤ c.tokens.length) ∧
      k.tokens.length ≤ c.tokens.length := by
  have hsettles := ((Grammar.statementsSettle (Nat.le_refl depth)).declaration c hdepth).2
  rw [hcourse.apply_eq] at hsettles
  rw [hskips.eq_synchronized]
  exact ⟨atEnd_or_lt_synchronized (d := { d with faults := fault :: d.faults }) hsettles,
    Nat.le_trans (length_synchronized_le _) hsettles⟩

/-- The passes are those of the loop: it gives their statements and leaves off where they do. -/
theorem declarations_eq (h : Passes depth c passes e) (hdepth : 16 * c.tokens.length + 12 ≤ depth)
    (hn : c.isAtEnd = true ∨ c.tokens.length ≤ n) (before : List Stmt) :
    declarations depth n before c = (before.reverse ++ passes.filterMap Pass.statement?, e) := by
  induction h generalizing n before with
  | ended h => rw [declarations_of_atEnd h, List.filterMap_nil, List.append_nil]
  | @read c d _ _ s _ h hcourse _ ih =>
    have hlength := length_lt_of_read hdepth hcourse
    rw [h] at hn
    have hn := hn.resolve_left Bool.false_ne_true
    obtain ⟨n, rfl⟩ : ∃ k, n = k + 1 := ⟨n - 1, by omega⟩
    rw [declarations, h, if_neg Bool.false_ne_true, hcourse.apply_eq,
      List.filterMap_cons_some (f := Pass.statement?) rfl, List.append_cons, ← List.reverse_cons]
    exact ih (by omega) (.inr (by omega)) (s :: before)
  | @unwound c d k _ _ _ fault _ h hcourse hskips _ ih =>
    obtain ⟨hless, hle⟩ := atEnd_or_lt_of_unwound hdepth hcourse hskips
    rw [h] at hn
    have hn := hn.resolve_left Bool.false_ne_true
    obtain ⟨n, rfl⟩ : ∃ k, n = k + 1 := ⟨n - 1, by
      have := length_tail_of_not_atEnd h
      omega⟩
    rw [declarations, h, if_neg Bool.false_ne_true, hcourse.apply_eq,
      List.filterMap_cons_none (f := Pass.statement?) rfl]
    have hrest : declarations depth n before k = _ :=
      ih (by omega) (hless.imp_right fun _ => by omega) before
    rwa [hskips.eq_synchronized] at hrest

/-- The loop comes to the end by passes. -/
theorem exist (hdepth : 16 * c.tokens.length + 12 ≤ depth)
    (hn : c.isAtEnd = true ∨ c.tokens.length ≤ n) : ∃ passes e, Passes depth c passes e := by
  induction n generalizing c with
  | zero =>
    cases hend : c.isAtEnd with
    | true => exact ⟨[], c, .ended hend⟩
    | false =>
      have htail := length_tail_of_not_atEnd hend
      have hn := (hend ▸ hn).resolve_left Bool.false_ne_true
      omega
  | succ n ih =>
    cases hend : c.isAtEnd with
    | true => exact ⟨[], c, .ended hend⟩
    | false =>
      have hn := (hend ▸ hn).resolve_left Bool.false_ne_true
      have hstepwise := (Grammar.statementsStepwise depth).declaration c
      rcases ((Grammar.statementsSettle (Nat.le_refl depth)).declaration c hdepth).cases with
        ⟨s, d, hx, -, hd⟩ | ⟨fault, d, hx, -, hd⟩
      · rw [hx] at hstepwise
        obtain ⟨path, hcourse⟩ := hstepwise nofun
        obtain ⟨passes, e, hrest⟩ := ih (c := d) (by omega) (.inr (by omega))
        exact ⟨_, e, .read hend hcourse hrest⟩
      · rw [hx] at hstepwise
        obtain ⟨path, hcourse⟩ := hstepwise nofun
        obtain ⟨path', k, hskips⟩ := exists_synchronizes { d with faults := fault :: d.faults }
        obtain ⟨hless, hle⟩ := atEnd_or_lt_of_unwound hdepth hcourse hskips
        obtain ⟨passes, e, hrest⟩ := ih (c := k) (by omega) (hless.imp_right fun _ => by omega)
        exact ⟨_, e, .unwound hend hcourse hskips hrest⟩

/-- What a run of passes does: it moves forward, and each pass gets past a token. -/
theorem forward (he : eof.kind = .endOfSource) (h : Passes depth c passes e)
    (hdepth : 16 * c.tokens.length + 12 ≤ depth) (hc : c.Within (body ++ [eof])) :
    Forward (body ++ [eof]) c (passes.flatMap Pass.path ++ [e]) e ∧
      (∀ p ∈ passes, p.before.position (body ++ [eof]) < p.after.position (body ++ [eof])) ∧
      c.position (body ++ [eof]) + passes.length ≤ e.position (body ++ [eof]) := by
  induction h with
  | ended => exact ⟨.step hc hc (Nat.le_refl _), nofun, Nat.le_refl _⟩
  | @read c d _ path _ passes _ hcourse _ ih =>
    have hlength := length_lt_of_read hdepth hcourse
    have hpath := (Forward.step hc hc (Nat.le_refl _)).trans (hcourse.forward he hc)
    obtain ⟨hforward, hpasses, hcount⟩ := ih (by omega) hpath.last
    have hlt : c.position (body ++ [eof]) < d.position (body ++ [eof]) := by
      have hadd := hc.position_add
      have hadd' := hpath.last.position_add
      omega
    refine ⟨?_, List.forall_mem_cons.2 ⟨hlt, hpasses⟩, ?_⟩
    · rw [List.flatMap_cons, List.append_assoc]
      exact hpath.trans hforward
    · rw [List.length_cons]
      omega
  | @unwound c d k _ path path' fault passes h hcourse hskips _ ih =>
    obtain ⟨hless, hle⟩ := atEnd_or_lt_of_unwound hdepth hcourse hskips
    have hnoted : Forward (body ++ [eof]) c (c :: path) { d with faults := fault :: d.faults } :=
      ((Forward.step hc hc (Nat.le_refl _)).trans (hcourse.forward he hc)).congr_last rfl
    have hpath := hnoted.trans (hskips.forward he hnoted.last)
    obtain ⟨hforward, hpasses, hcount⟩ := ih (by omega) hpath.last
    have hlt : c.position (body ++ [eof]) < k.position (body ++ [eof]) := by
      rcases hless with hend | hless
      · exact hc.position_lt_of_atEnd hpath.last hpath.le h hend
      · have hadd := hc.position_add
        have hadd' := hpath.last.position_add
        omega
    refine ⟨?_, List.forall_mem_cons.2 ⟨hlt, hpasses⟩, ?_⟩
    · rw [List.flatMap_cons, List.append_assoc]
      exact hpath.trans hforward
    · rw [List.length_cons]
      omega

end Passes

/-! ### Whole readings -/

/-- The cursors stand at tokens of the list, each at the same place as the one before or further on. -/
structure Orderly (tokens : List Token) (path : List Cursor) : Prop where
  inRange : ∀ c ∈ path, c.position tokens < tokens.length ∧
    tokens[c.position tokens]? = some c.current
  ordered : (path.map (position tokens)).Pairwise (· ≤ ·)

theorem Cursor.Forward.orderly {tokens : List Token} {c d : Cursor} {path : List Cursor}
    (h : Forward tokens c path d) : Orderly tokens path :=
  ⟨fun e he => ⟨(h.within e he).1.position_lt, (h.within e he).1.getElem?_position⟩, h.ordered⟩

namespace Pass

theorem length_statements_add_length_faults (passes : List Pass) :
    (passes.filterMap statement?).length + (passes.filterMap fault?).length = passes.length := by
  induction passes with
  | nil => rfl
  | cons p rest ih =>
    obtain ⟨before, path, result, after⟩ := p
    cases result with
    | ok s =>
      rw [List.filterMap_cons_some (f := statement?) rfl, List.filterMap_cons_none (f := fault?) rfl,
        List.length_cons, List.length_cons]
      omega
    | error fault =>
      rw [List.filterMap_cons_none (f := statement?) rfl, List.filterMap_cons_some (f := fault?) rfl,
        List.length_cons, List.length_cons]
      omega

end Pass

namespace Reading

variable {eof : Token}

theorem start_within (body : List Token) (eof : Token) (firstId : NodeId) :
    Cursor.Within (body ++ [eof]) ⟨body ++ [eof], firstId, []⟩ :=
  ⟨List.suffix_rfl, List.append_ne_nil_of_right_ne_nil body (List.cons_ne_nil eof [])⟩

/-- Reading moves forward and stays within the tokens, however badly they are formed. A program is read in
passes, and an expression by a course; all places they look at are in range and in order, up to the last
one. The passes come to the end, each of them gets past a token, and so there are no more statements and
faults that end a declaration than tokens before the end. The bounds of the recursion do not matter:
larger ones give the same. -/
theorem moves_forward (body : List Token) (he : eof.kind = .endOfSource) (firstId : NodeId) :
    let tokens := body ++ [eof]
    let start : Cursor := ⟨tokens, firstId, []⟩
    let depth := Cursor.depthFor tokens
    ((∃ passes last, Passes depth start passes last) ∧
      ∀ passes last, Passes depth start passes last →
        Orderly tokens (passes.flatMap Pass.path ++ [last]) ∧ last.isAtEnd = true ∧
        (∀ p ∈ passes, p.before.position tokens < p.after.position tokens) ∧
        (passes.filterMap Pass.statement?).length + (passes.filterMap Pass.fault?).length ≤ body.length ∧
        (ofTokens tokens firstId).result =
          if last.faults.isEmpty then .ok (passes.filterMap Pass.statement?)
          else .error last.faults.reverse) ∧
    ((∃ path, Rule.Course (Rule.expression depth) start path (Rule.expression depth start)) ∧
      ∀ path o, Rule.Course (Rule.expression depth) start path o →
        match o with
        | .ok _ last | .error _ last => Orderly tokens (path ++ [last])
        | .exhausted => False) ∧
    ∀ larger n, depth ≤ larger → tokens.length ≤ n →
      Cursor.declarations larger n [] start = Cursor.declarations depth tokens.length [] start ∧
      Rule.expression larger start = Rule.expression depth start := by
  intro tokens start depth
  have hstart : start.Within tokens := start_within body eof firstId
  have hdepth : 16 * start.tokens.length + 12 ≤ depth := by
    show 16 * tokens.length + 12 ≤ 16 * (tokens.length + 1)
    omega
  have hbound : start.isAtEnd = true ∨ start.tokens.length ≤ tokens.length := .inr (Nat.le_refl _)
  refine ⟨⟨Passes.exist hdepth hbound, fun passes last h => ?_⟩, ⟨?_, fun path o h => ?_⟩,
    fun larger n hlarger hn => ⟨?_, ?_⟩⟩
  · obtain ⟨hforward, hpasses, hcount⟩ := h.forward he hdepth hstart
    refine ⟨hforward.orderly, h.isAtEnd, hpasses, ?_, ?_⟩
    · have hlt := hforward.last.position_lt
      rw [List.length_append, List.length_singleton] at hlt
      rw [Pass.length_statements_add_length_faults]
      omega
    · rw [ofTokens, h.declarations_eq hdepth hbound []]
      rfl
  · refine (Grammar.expressionsStepwise depth).expression start fun hexhausted => ?_
    have hsettles := ((Grammar.expressionsSettle (Nat.le_refl depth)).expression start (by omega)).2
    rw [hexhausted] at hsettles
    exact hsettles
  · have hforward := h.forward he hstart
    cases o with
    | ok e last => exact (hforward.trans (.step hforward.last hforward.last (Nat.le_refl _))).orderly
    | error fault last =>
      exact (hforward.trans (.step hforward.last hforward.last (Nat.le_refl _))).orderly
    | exhausted => exact hforward
  · exact declarations_settle hdepth hlarger hbound (.inr hn) []
  · exact ((Grammar.expressionsSettle hlarger).expression start (by omega)).1

/-- Tokens that begin no statement and a declaration that breaks off: the reading has two passes at most,
and each ends with a fault. -/
theorem moves_forward_unclosed :
    let tokens : List Token := [⟨.symbol .rightParen, ")", 1⟩, ⟨.keyword .kwVar, "var", 1⟩] ++ [.atEnd 1]
    (ofTokens tokens 0).result = .error
      [⟨.grammatical .expectedExpression, 1⟩, ⟨.grammatical (.expectedName .ofVariable), 1⟩] ∧
    ∃ passes last, Passes (Cursor.depthFor tokens) ⟨tokens, 0, []⟩ passes last ∧ last.isAtEnd = true ∧
      (passes.filterMap Pass.statement?).length + (passes.filterMap Pass.fault?).length ≤ 2 := by
  have hend : (Token.atEnd 1).kind = .endOfSource := rfl
  obtain ⟨⟨⟨passes, last, hpasses⟩, hall⟩, -⟩ :=
    moves_forward [⟨.symbol .rightParen, ")", 1⟩, ⟨.keyword .kwVar, "var", 1⟩] hend 0
  obtain ⟨-, hatEnd, -, hcount, -⟩ := hall passes last hpasses
  exact ⟨rfl, passes, last, hpasses, hatEnd, hcount⟩

end Reading

end Lox
