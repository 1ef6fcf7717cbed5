import Lox.Token.Segment

/-!
# Scanning

A source that is being read yields one item after the other: a token, or the fault of a segment that
is none; then its end, once; then nothing. Lines are counted over all segments alike, so an item's
line is that of the last character of its segment.
-/

namespace Lox

/-- What is left of a source, the line there, and whether its end has been yielded. -/
structure Source where
  rest : List Char
  line : Nat
  finished : Bool

namespace Source

abbrev Item := Except Diagnostic Token

def ofText (text : String) : Source := ⟨text.toList, 1, false⟩

/-- The number of line breaks in a text. -/
def newlines (text : List Char) : Nat := text.count '\n'

/-- How many characters and end marks are still to be yielded. -/
def remaining (s : Source) : Nat := if s.finished then 0 else s.rest.length + 1

/-- The next item and the source after it. Blanks and comments are passed over. -/
def next? (s : Source) : Option (Item × Source) :=
  if s.finished then none
  else match _h : s.rest with
    | [] => some (.ok (.atEnd s.line), { s with finished := true })
    | c :: cs =>
      let cut := Segment.first c cs
      let line := s.line + newlines cut.text
      let after : Source := ⟨cut.rest, line, false⟩
      match cut.kind with
      | .blank | .comment => after.next?
      | .token kind => some (.ok ⟨kind, String.ofList cut.text, line⟩, after)
      | .fault fault => some (.error ⟨.lexical fault, line⟩, after)
termination_by s.rest.length
decreasing_by
  all_goals
    have := Segment.first_rest_length c cs
    simp only [_h, List.length_cons]
    omega

theorem next?_remaining {s t : Source} {item : Item} (h : s.next? = some (item, t)) :
    t.remaining < s.remaining := by
  fun_induction next? s with
  | case1 => simp at h
  | case2 s hs hr =>
    obtain ⟨-, rfl⟩ := by simpa using h
    simp [remaining, hs]
  | case3 s hs c cs hr cut line after hk ih =>
    have := Segment.first_rest_length c cs
    have := ih h
    simp only [remaining, hs, hr, after, cut, Bool.false_eq_true, if_false,
      List.length_cons] at *
    omega
  | case4 s hs c cs hr cut line after hk ih =>
    have := Segment.first_rest_length c cs
    have := ih h
    simp only [remaining, hs, hr, after, cut, Bool.false_eq_true, if_false,
      List.length_cons] at *
    omega
  | case5 s hs c cs hr cut line after kind hk =>
    obtain ⟨-, rfl⟩ := by simpa using h
    have := Segment.first_rest_length c cs
    simp only [remaining, hs, hr, after, cut, Bool.false_eq_true, if_false,
      List.length_cons] at *
    omega
  | case6 s hs c cs hr cut line after fault hk =>
    obtain ⟨-, rfl⟩ := by simpa using h
    have := Segment.first_rest_length c cs
    simp only [remaining, hs, hr, after, cut, Bool.false_eq_true, if_false,
      List.length_cons] at *
    omega

/-- Reads to the end and puts the items after those in `found`. -/
def drain (s : Source) (found : Array Item) : Array Item × Source :=
  match _h : s.next? with
  | none => (found, s)
  | some (item, t) => t.drain (found.push item)
termination_by s.remaining
decreasing_by exact next?_remaining _h

/-- All items of a source, in order. -/
def items (s : Source) : List Item := (s.drain #[]).1.toList

end Source

/-- The tokens and the faults of a text, each in order. -/
structure Scan where
  tokens : List Token
  faults : List Diagnostic

namespace Scan

def ofItems (items : List Source.Item) : Scan where
  tokens := items.filterMap Except.toOption
  faults := items.filterMap fun
    | .ok _ => none
    | .error fault => some fault

def ofText (text : String) : Scan := ofItems (Source.ofText text).items

end Scan

end Lox
