import Lox.Proofs.Token.Segmentation

/-!
# Lines of items

Lines are counted over the text as it is read, so the line of an item lies between the first line of the
text and its last one. It is the line that the line breaks count up to where the item ends, on whatever
way they were passed: between tokens, in a string or behind a comment.
-/

namespace Lox

namespace Source

/-- The line that an item is reported on. -/
def Item.line : Item → Nat
  | .ok token => token.line
  | .error fault => fault.line

/-- A segment yields its item on the line where the segment ends. -/
theorem line_of_mem_itemsOf {cut : Segment.Cut} {line : Nat} {item : Item}
    (h : item ∈ itemsOf cut line) : Item.line item = line := by
  unfold itemsOf at h
  split at h
  · cases h
  · cases h
  · rw [List.mem_singleton.1 h]
    rfl
  · rw [List.mem_singleton.1 h]
    rfl

/-- The lines of the items of a text are lines of the text. -/
theorem line_of_mem_itemsFrom {line : Nat} {text : List Char} {item : Item}
    (h : item ∈ itemsFrom line text) :
    line ≤ Item.line item ∧ Item.line item ≤ line + newlines text := by
  induction text using Segment.text_induction generalizing line with
  | nil =>
    rw [itemsFrom_nil] at h
    rw [List.mem_singleton.1 h]
    exact ⟨Nat.le_refl _, Nat.le_refl _⟩
  | cons c cs ih =>
    have hlines := newlines_cons c cs
    rw [itemsFrom_cons] at h
    rcases List.mem_append.1 h with h | h
    · rw [line_of_mem_itemsOf h]
      omega
    · obtain ⟨hlow, hhigh⟩ := ih h
      omega

/-- A line of the source: from 1 on, and one more for each line break. -/
def HasLine (source : String) (line : Nat) : Prop := 1 ≤ line ∧ line ≤ 1 + newlines source.toList

end Source

namespace Scan

theorem hasLine_tokens (source : String) :
    ∀ t ∈ (ofText source).tokens, Source.HasLine source t.line := by
  intro t ht
  obtain ⟨item, hitem, hok⟩ := List.mem_filterMap.1 ht
  cases item with
  | error fault => cases hok
  | ok u =>
    cases hok
    exact Source.line_of_mem_itemsFrom hitem

theorem hasLine_faults (source : String) :
    ∀ fault ∈ (ofText source).faults, Source.HasLine source fault.line := by
  intro fault hfault
  obtain ⟨item, hitem, herror⟩ := List.mem_filterMap.1 hfault
  cases item with
  | ok u => cases herror
  | error fault =>
    cases herror
    exact Source.line_of_mem_itemsFrom hitem

end Scan

/-! ### Counting line breaks -/

namespace Source

variable {source : List Char} {s t : Source} {item : Item}

/-- What is left of a source when it has been asked for so many items. -/
def after (s : Source) : Nat → Source
  | 0 => s
  | n + 1 =>
    match s.next? with
    | some (_, t) => t.after n
    | none => s

theorem after_of_none (h : s.next? = none) (n : Nat) : s.after n = s := by
  cases n with
  | zero => rfl
  | succ n => rw [after, h]

theorem after_of_some (h : s.next? = some (item, t)) (n : Nat) : s.after (n + 1) = t.after n := by
  rw [after, h]

/-- A place in a text that is being read: the line there is counted by the line breaks before it. -/
structure PlaceIn (source read : List Char) (s : Source) : Prop where
  source_eq : source = read ++ s.rest
  line_eq : s.line = 1 + newlines read

/-- An item of a text with the text that is read when it has been found. A token ends there, and its line
is counted by the line breaks before its end. A character that begins nothing is no line break. A string
that never ends takes all of the text, and the end of the text comes after all of it. -/
inductive CountedAt (source : List Char) : List Char → Item → Prop where
  | token {before : List Char} {t : Token} (hkind : t.kind ≠ .endOfSource)
      (hline : t.line = 1 + newlines (before ++ t.text.toList)) :
      CountedAt source (before ++ t.text.toList) (.ok t)
  | atEnd : CountedAt source source (.ok (.atEnd (1 + newlines source)))
  | unexpected {before : List Char} {c : Char} :
      CountedAt source (before ++ [c])
        (.error ⟨.lexical (.unexpectedCharacter c), 1 + newlines before⟩)
  | unterminated : CountedAt source source
      (.error ⟨.lexical .unterminatedString, 1 + newlines source⟩)

/-- A segment that is no token is counted like one: it has no line break in it, or nothing follows it. -/
theorem countedAt_of_fits (read : List Char) {fault : LexicalFault} {text rest : List Char}
    (h : Segment.Fits (.fault fault) text rest) :
    CountedAt (read ++ (text ++ rest)) (read ++ text)
      (.error ⟨.lexical fault, 1 + newlines (read ++ text)⟩) := by
  cases h with
  | @unexpected c _ hblank =>
    have hbreak : newlines [c] = 0 := by
      rw [newlines, List.count_eq_zero]
      intro hmem
      obtain rfl := List.mem_singleton.1 hmem
      exact hblank (by simp)
    rw [newlines_append, hbreak]
    exact .unexpected
  | unterminated =>
    rw [List.append_nil]
    exact .unterminated

/-- Behind the first segment of what is left there is a place in the text again. -/
theorem PlaceIn.cut {read : List Char} (h : s.PlaceIn source read) {c : Char} {cs : List Char}
    (hrest : s.rest = c :: cs) :
    PlaceIn source (read ++ (Segment.first c cs).text)
      ⟨(Segment.first c cs).rest, s.line + newlines (Segment.first c cs).text, false⟩ := by
  constructor
  · rw [List.append_assoc, Segment.first_text_append_rest, ← hrest]
    exact h.source_eq
  · rw [newlines_append, ← Nat.add_assoc, ← h.line_eq]

/-- Each step goes on to a place in the text and counts the item up to it. -/
theorem exists_placeIn_of_next? (hnext : s.next? = some (item, t)) :
    ∀ read, s.PlaceIn source read →
      ∃ more, t.PlaceIn source (read ++ more) ∧ CountedAt source (read ++ more) item := by
  fun_induction next? s with
  | case1 => cases hnext
  | case2 s hs hr =>
    intro read h
    obtain ⟨rfl, rfl⟩ := Prod.mk.inj (Option.some.inj hnext)
    have hread : source = read := by rw [h.source_eq, hr, List.append_nil]
    refine ⟨[], ?_, ?_⟩
    · rw [List.append_nil]
      exact ⟨h.source_eq, h.line_eq⟩
    · rw [List.append_nil, h.line_eq, ← hread]
      exact .atEnd
  | case3 s hs c cs hr cut line after hk ih =>
    intro read h
    obtain ⟨more, hplace, hitem⟩ := ih hnext _ (h.cut hr)
    rw [List.append_assoc] at hplace hitem
    exact ⟨cut.text ++ more, hplace, hitem⟩
  | case4 s hs c cs hr cut line after hk ih =>
    intro read h
    obtain ⟨more, hplace, hitem⟩ := ih hnext _ (h.cut hr)
    rw [List.append_assoc] at hplace hitem
    exact ⟨cut.text ++ more, hplace, hitem⟩
  | case5 s hs c cs hr cut line after kind hk =>
    intro read h
    obtain ⟨rfl, rfl⟩ := Prod.mk.inj (Option.some.inj hnext)
    have hplace := h.cut hr
    have hsound := (Segment.first_sound c cs kind line hk).ne_end
    have htoken := @CountedAt.token source read ⟨kind, String.ofList cut.text, line⟩ hsound
    rw [String.toList_ofList] at htoken
    exact ⟨cut.text, hplace, htoken hplace.line_eq⟩
  | case6 s hs c cs hr cut line after fault hk =>
    intro read h
    obtain ⟨rfl, rfl⟩ := Prod.mk.inj (Option.some.inj hnext)
    have hplace := h.cut hr
    have hfits := Segment.first_fits c cs
    rw [hk] at hfits
    have hcounted := countedAt_of_fits read hfits
    rw [← List.append_assoc, ← hplace.source_eq, ← hplace.line_eq] at hcounted
    exact ⟨cut.text, hplace, hcounted⟩

/-- However many items have been asked for, the source is at a place in the text, and the next item is
counted. -/
theorem PlaceIn.answer {read : List Char} (h : s.PlaceIn source read) {n : Nat}
    (hanswer : s.answer n = some item) :
    ∃ more, (s.after (n + 1)).PlaceIn source (read ++ more) ∧
      CountedAt source (read ++ more) item := by
  induction n generalizing s read with
  | zero =>
    obtain ⟨⟨_, t⟩, hnext, rfl⟩ := Option.map_eq_some_iff.1 hanswer
    rw [after_of_some hnext]
    exact exists_placeIn_of_next? hnext read h
  | succ n ih =>
    unfold Source.answer at hanswer
    cases hnext : s.next? with
    | none =>
      rw [hnext] at hanswer
      rw [after_of_none hnext]
      have hsame := ih h hanswer
      rwa [after_of_none hnext] at hsame
    | some next =>
      obtain ⟨first, t⟩ := next
      rw [hnext] at hanswer
      rw [after_of_some hnext]
      obtain ⟨more, hplace, -⟩ := exists_placeIn_of_next? hnext read h
      obtain ⟨further, hlater, hitem⟩ := ih hplace hanswer
      rw [List.append_assoc] at hlater hitem
      exact ⟨more ++ further, hlater, hitem⟩

/-- The lines of the items of a text never decrease. -/
theorem pairwise_line_itemsFrom (line : Nat) (text : List Char) :
    (itemsFrom line text).Pairwise fun a b => Item.line a ≤ Item.line b := by
  induction text using Segment.text_induction generalizing line with
  | nil =>
    rw [itemsFrom_nil]
    exact List.pairwise_singleton _ _
  | cons c cs ih =>
    rw [itemsFrom_cons, List.pairwise_append]
    refine ⟨?_, ih _, fun a ha b hb => ?_⟩
    · unfold itemsOf
      split
      · exact .nil
      · exact .nil
      · exact List.pairwise_singleton _ _
      · exact List.pairwise_singleton _ _
    · rw [line_of_mem_itemsOf ha]
      exact (line_of_mem_itemsFrom hb).1

/-- Line numbers count line breaks exactly. Whatever item a source is asked for, it ends at a place of the
text, the text behind that place is what is left of the source, and the line of the item is counted by
the line breaks before its end; and so the lines of the items never decrease. -/
theorem lines_count_newlines (source : String) :
    (∀ n item, (ofText source).answer n = some item → ∃ read,
      source.toList = read ++ ((ofText source).after (n + 1)).rest ∧
      CountedAt source.toList read item) ∧
    (ofText source).items.Pairwise fun a b => Item.line a ≤ Item.line b := by
  refine ⟨fun n item hanswer => ?_, pairwise_line_itemsFrom 1 source.toList⟩
  have hstart : (ofText source).PlaceIn source.toList [] := ⟨rfl, rfl⟩
  obtain ⟨read, hplace, hitem⟩ := hstart.answer hanswer
  exact ⟨read, hplace.source_eq, hitem⟩

/-- A string over two lines, a wrong character and a comment, and a string that never ends, over two lines
as well. -/
theorem lines_count_newlines_strings :
    (ofText "\"a\nb\"\n@ // c\n\"d\n").answer 2 =
        some (.error ⟨.lexical .unterminatedString, 5⟩) ∧
      ∃ read, "\"a\nb\"\n@ // c\n\"d\n".toList =
          read ++ ((ofText "\"a\nb\"\n@ // c\n\"d\n").after 3).rest ∧
        CountedAt "\"a\nb\"\n@ // c\n\"d\n".toList read
          (.error ⟨.lexical .unterminatedString, 5⟩) := by
  have hanswer : (ofText "\"a\nb\"\n@ // c\n\"d\n").answer 2 =
      some (.error ⟨.lexical .unterminatedString, 5⟩) := by decide +kernel
  exact ⟨hanswer, (lines_count_newlines _).1 2 _ hanswer⟩

end Source

end Lox
