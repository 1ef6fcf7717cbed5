import Mathlib.Data.String.Basic
import Lox.Proofs.Token.Fitting
import Lox.Proofs.Token.Items
import Lox.Proofs.Token.Octets

/-!
# Segmentation of a source

Every source falls in exactly one way into segments that fit the lexical grammar, and scanning
yields the items of these segments one after the other, then the end of the source, then nothing,
however often it is asked.

## Implementation notes

Texts are lists of characters here. That no cut falls into a character is said of the bytes:
reading them one by one makes the same cuts, and both ends of a segment are ends of characters.
-/

namespace Lox

namespace Segment

/-- A segment by itself. -/
structure Piece where
  kind : Kind
  text : List Char
deriving DecidableEq

end Segment

open Segment

/-- A text as segments one after the other, each fitting where it stands. -/
inductive Segmentation : List Char → List Piece → Prop where
  | nil : Segmentation [] []
  | cons {kind text rest pieces} (hfits : Fits kind text rest)
      (hrest : Segmentation rest pieces) : Segmentation (text ++ rest) (⟨kind, text⟩ :: pieces)

namespace Segmentation

variable {text : List Char} {pieces others : List Piece}

/-- No character is lost, and none stands in two segments. -/
theorem flatMap_text (h : Segmentation text pieces) : pieces.flatMap Piece.text = text := by
  induction h with
  | nil => rfl
  | cons _ _ ih => rw [List.flatMap_cons, ih]

theorem unique (h : Segmentation text pieces) (h' : Segmentation text others) :
    others = pieces := by
  induction h generalizing others with
  | nil =>
    generalize hnil : ([] : List Char) = text at h'
    cases h' with
    | nil => rfl
    | cons hfits => exact absurd (List.append_eq_nil_iff.1 hnil.symm).1 hfits.text_ne_nil
  | @cons kind text rest pieces hfits _ ih =>
    generalize heq : text ++ rest = whole at h'
    cases h' with
    | nil => exact absurd (List.append_eq_nil_iff.1 heq).1 hfits.text_ne_nil
    | cons hfits' hrest' =>
      obtain ⟨rfl, rfl, rfl⟩ := hfits.unique hfits' heq
      rw [ih hrest']

end Segmentation

/-! ### The items of a segmentation -/

namespace Segment

/-- What a segment yields, when its last character is on this line. -/
def Piece.item? (p : Piece) (line : Nat) : Option Source.Item :=
  match p.kind with
  | .blank | .comment => none
  | .token kind => some (.ok ⟨kind, String.ofList p.text, line⟩)
  | .fault fault => some (.error ⟨.lexical fault, line⟩)

/-- What the segments yield from this line on, and the end of the source after them. -/
def itemsAlong : Nat → List Piece → List Source.Item
  | line, [] => [.ok (.atEnd line)]
  | line, p :: ps =>
    (p.item? (line + Source.newlines p.text)).toList ++
      itemsAlong (line + Source.newlines p.text) ps

end Segment

namespace Source

/-- Scanning yields the items of the segments that it cuts off. -/
theorem exists_segmentation (line : Nat) (text : List Char) :
    ∃ pieces, Segmentation text pieces ∧ itemsFrom line text = itemsAlong line pieces := by
  induction text using text_induction generalizing line with
  | nil => exact ⟨[], .nil, itemsFrom_nil line⟩
  | cons c cs ih =>
    obtain ⟨pieces, hpieces, hitems⟩ := ih (line + newlines (first c cs).text)
    refine ⟨⟨(first c cs).kind, (first c cs).text⟩ :: pieces, ?_, ?_⟩
    · rw [← first_text_append_rest c cs]
      exact .cons (first_fits c cs) hpieces
    · have hitem : itemsOf (first c cs) (line + newlines (first c cs).text) =
          (Piece.item? ⟨(first c cs).kind, (first c cs).text⟩
            (line + newlines (first c cs).text)).toList := by
        unfold itemsOf Piece.item?
        cases (first c cs).kind <;> rfl
      rw [itemsFrom_cons, hitems, hitem]
      rfl

/-- What the source yields when it is asked for the next item once more after `n` times. A source
that yields nothing stays as it is. -/
def answer (s : Source) : Nat → Option Item
  | 0 => s.next?.map Prod.fst
  | n + 1 =>
    match s.next? with
    | some (_, t) => t.answer n
    | none => s.answer n

theorem answer_eq (s : Source) (n : Nat) : s.answer n = s.items[n]? := by
  induction n generalizing s with
  | zero =>
    unfold answer
    cases hs : s.next? with
    | none =>
      rw [items_of_none hs]
      rfl
    | some next =>
      rw [items_of_some hs]
      rfl
  | succ n ih =>
    unfold answer
    cases hs : s.next? with
    | none =>
      show s.answer n = _
      rw [ih s, items_of_none hs]
      rfl
    | some next =>
      show next.2.answer n = _
      rw [ih next.2, items_of_some hs]
      rfl

end Source

/-! ### Bytes -/

/-- Bytes cut up by looking at single bytes. -/
inductive Octets.Cuts : List UInt8 → List (List UInt8) → Prop where
  | nil : Cuts [] []
  | cons {b bs pieces} (h : Cuts (Octets.first b bs).2 pieces) :
      Cuts (b :: bs) ((Octets.first b bs).1 :: pieces)

namespace Segmentation

variable {text : List Char} {pieces : List Piece}

/-- The bytes of a source are cut up into those of its segments. -/
theorem cuts (h : Segmentation text pieces) :
    Octets.Cuts (octets text) (pieces.map fun p => octets p.text) := by
  induction h with
  | nil => exact .nil
  | @cons kind text rest pieces hfits _ ih =>
    obtain ⟨c, cs, rfl⟩ := List.exists_cons_of_ne_nil hfits.text_ne_nil
    obtain ⟨-, htext, hrest⟩ := hfits.unique (first_fits c (cs ++ rest))
      (first_text_append_rest c (cs ++ rest)).symm
    obtain ⟨b, bs, hbytes⟩ : ∃ b bs, octets (c :: (cs ++ rest)) = b :: bs := by
      apply List.exists_cons_of_ne_nil
      rw [octets_cons]
      exact List.append_ne_nil_of_left_ne_nil String.utf8EncodeChar_ne_nil _
    have hfirst := Octets.first_octets hbytes
    rw [Octets.ofCut, ← htext, ← hrest] at hfirst
    have hcuts := @Octets.Cuts.cons b bs (pieces.map fun p => octets p.text)
    rw [hfirst, ← hbytes] at hcuts
    exact hcuts ih

end Segmentation

/-- The text between two places of a source, neither of them inside a character. -/
structure IsSlice (source : String) (start stop : String.Pos.Raw) (text : List Char) : Prop where
  start_valid : start.IsValid source
  stop_valid : stop.IsValid source
  extract_eq : String.Pos.Raw.extract source start stop = String.ofList text

/-- What stands between two texts is a slice of the whole. -/
theorem isSlice_append (before text after : List Char) :
    IsSlice (String.ofList (before ++ text ++ after)) ⟨String.utf8Len before⟩
      ⟨String.utf8Len before + String.utf8Len text⟩ text := by
  constructor
  · rw [String.Pos.Raw.isValid_iff_exists_append]
    refine ⟨String.ofList before, String.ofList (text ++ after), ?_, ?_⟩
    · rw [← String.ofList_append, List.append_assoc]
    · rw [String.rawEndPos, String.utf8ByteSize_ofList]
  · rw [String.Pos.Raw.isValid_iff_exists_append]
    refine ⟨String.ofList (before ++ text), String.ofList after, String.ofList_append, ?_⟩
    rw [String.rawEndPos, String.utf8ByteSize_ofList, String.utf8Len_append]
  · exact String.extract_of_valid before text after

/-! ### Scanning -/

namespace Source

/-- Scanning a source answers with the items of its only segmentation, then with its end, then with
nothing. Reading its bytes one by one makes the same cuts, and each segment is a slice of the source
between two characters. -/
theorem answers_segmentation (source : String) :
    ∃ pieces, Segmentation source.toList pieces ∧
      (∀ others, Segmentation source.toList others → others = pieces) ∧
      (∀ n, (ofText source).answer n = (itemsAlong 1 pieces)[n]?) ∧
      Octets.Cuts source.toUTF8.data.toList (pieces.map fun p => octets p.text) ∧
      ∀ before p after, pieces = before ++ p :: after →
        IsSlice source ⟨String.utf8Len (before.flatMap Piece.text)⟩
          ⟨String.utf8Len (before.flatMap Piece.text) + String.utf8Len p.text⟩ p.text := by
  obtain ⟨pieces, hpieces, hitems⟩ := exists_segmentation 1 source.toList
  refine ⟨pieces, hpieces, fun others h => hpieces.unique h, ?_, ?_, ?_⟩
  · intro n
    rw [answer_eq, ← hitems]
    rfl
  · rw [toUTF8_toList]
    exact hpieces.cuts
  · rintro before p after rfl
    have htext := hpieces.flatMap_text
    rw [List.flatMap_append, List.flatMap_cons, ← List.append_assoc] at htext
    have hslice := isSlice_append (before.flatMap Piece.text) p.text (after.flatMap Piece.text)
    rw [htext, String.ofList_toList] at hslice
    exact hslice

end Source

end Lox
