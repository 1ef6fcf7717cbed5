import Lox.Proofs.Respelling.Texts

/-!
# S-expressions

Atoms, and lists in parentheses with spaces between the items. If no atom is empty or has a space or a
parenthesis in it, the text of an S-expression is that of no other, also with more text behind it.
-/

namespace Lox

inductive SExpr where
  | atom (text : String)
  | list (items : List SExpr)

namespace SExpr

/-- Whether a character may stand in an atom. -/
def isAtomChar (c : Char) : Bool := c ≠ ' ' && c ≠ '(' && c ≠ ')'

mutual

def chars : SExpr → List Char
  | atom text => text.toList
  | list items => '(' :: (spacedChars items).tail ++ [')']

/-- Each item with a space before it. -/
def spacedChars : List SExpr → List Char
  | [] => []
  | x :: rest => ' ' :: x.chars ++ spacedChars rest

end

/-- A text that can be told from what stands around it. -/
structure IsAtom (text : String) : Prop where
  ne_nil : text.toList ≠ []
  chars : ∀ c ∈ text.toList, isAtomChar c = true

mutual

/-- All atoms can be told apart. -/
def Readable : SExpr → Prop
  | atom text => IsAtom text
  | list items => AllReadable items

def AllReadable : List SExpr → Prop
  | [] => True
  | x :: rest => x.Readable ∧ AllReadable rest

end

/-- No text of an S-expression begins like the end of a list. -/
theorem exists_chars_eq_cons {x : SExpr} (hx : x.Readable) :
    ∃ c cs, x.chars = c :: cs ∧ c ≠ ')' := by
  cases x with
  | atom text =>
    obtain ⟨c, cs, htext⟩ := List.exists_cons_of_ne_nil hx.ne_nil
    refine ⟨c, cs, htext, fun hc => ?_⟩
    have hatom := hx.chars c (htext ▸ List.mem_cons_self)
    rw [hc] at hatom
    cases hatom
  | list items => exact ⟨_, _, rfl, by decide⟩

/-- No atom is read as a list. -/
theorem chars_atom_ne_list {text : String} {items : List SExpr} {s t : List Char} (h : IsAtom text) :
    (atom text).chars ++ s ≠ (list items).chars ++ t := by
  intro heq
  obtain ⟨c, cs, htext⟩ := List.exists_cons_of_ne_nil h.ne_nil
  have hatom := h.chars c (htext ▸ List.mem_cons_self)
  rw [chars, htext, chars] at heq
  rw [(List.cons.inj heq).1] at hatom
  cases hatom

/-- The first item of a list has no space before it, and no other end of the list for a beginning. -/
theorem spacedChars_of_tail {xs ys : List SExpr} {s t : List Char} (hxs : AllReadable xs)
    (hys : AllReadable ys)
    (h : (spacedChars xs).tail ++ ')' :: s = (spacedChars ys).tail ++ ')' :: t) :
    spacedChars xs ++ ')' :: s = spacedChars ys ++ ')' :: t := by
  have hne {x : SExpr} {rest : List SExpr} {s t : List Char} (hx : x.Readable) :
      ')' :: s ≠ (spacedChars (x :: rest)).tail ++ t := by
    intro heq
    obtain ⟨c, cs, htext, hc⟩ := exists_chars_eq_cons hx
    simp only [spacedChars, List.cons_append, List.tail_cons, htext] at heq
    exact hc (List.cons.inj heq).1.symm
  cases xs with
  | nil =>
    cases ys with
    | nil => exact h
    | cons y ys => exact absurd h (hne hys.1)
  | cons x xs =>
    cases ys with
    | nil => exact absurd h.symm (hne hxs.1)
    | cons y ys => exact congrArg (' ' :: ·) h

mutual

/-- The text of an S-expression tells where it ends and what it is. -/
theorem chars_inj (x y : SExpr) (hx : x.Readable) (hy : y.Readable) {s t : List Char}
    (hs : Text.Stops isAtomChar s) (ht : Text.Stops isAtomChar t) (h : x.chars ++ s = y.chars ++ t) :
    x = y ∧ s = t := by
  match x, y with
  | .atom text, .atom other =>
    obtain ⟨hfirst, hrest⟩ := Text.span_append hx.chars hs
    obtain ⟨hfirst', hrest'⟩ := Text.span_append hy.chars ht
    rw [chars, chars] at h
    rw [h] at hfirst hrest
    exact ⟨congrArg atom (String.toList_inj.1 (hfirst.symm.trans hfirst')), hrest.symm.trans hrest'⟩
  | .atom text, .list items => exact absurd h (chars_atom_ne_list hx)
  | .list items, .atom text => exact absurd h.symm (chars_atom_ne_list hy)
  | .list xs, .list ys =>
    simp only [chars, List.cons_append, List.append_assoc, List.nil_append, List.cons.injEq,
      true_and] at h
    obtain ⟨rfl, hst⟩ := spacedChars_inj xs ys hx hy (spacedChars_of_tail hx hy h)
    exact ⟨rfl, hst⟩

theorem spacedChars_inj (xs ys : List SExpr) (hxs : AllReadable xs) (hys : AllReadable ys)
    {s t : List Char} (h : spacedChars xs ++ ')' :: s = spacedChars ys ++ ')' :: t) :
    xs = ys ∧ s = t := by
  match xs, ys with
  | [], [] => exact ⟨rfl, (List.cons.inj h).2⟩
  | [], y :: ys => exact absurd (List.cons.inj h).1 (by decide)
  | x :: xs, [] => exact absurd (List.cons.inj h).1 (by decide)
  | x :: xs, y :: ys =>
    simp only [spacedChars, List.cons_append, List.append_assoc, List.cons.injEq, true_and] at h
    have hstops (zs : List SExpr) (s : List Char) :
        Text.Stops isAtomChar (spacedChars zs ++ ')' :: s) := by
      cases zs with
      | nil => exact Text.stops_cons.2 rfl
      | cons z zs => exact Text.stops_cons.2 rfl
    obtain ⟨rfl, hrest⟩ := chars_inj x y hxs.1 hys.1 (hstops xs s) (hstops ys t) h
    obtain ⟨rfl, hst⟩ := spacedChars_inj xs ys hxs.2 hys.2 hrest
    exact ⟨rfl, hst⟩

end

end SExpr

end Lox
