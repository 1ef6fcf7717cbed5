import Lox.Token.Scan

/-!
# The items of a source

What scanning yields, by recursion on the segments of the source: a token or a fault for each
segment that is one, then the end. From this, every scan ends with its only end token, and no name
is a keyword.
-/

namespace Lox

namespace Source

theorem drain_of_none {s : Source} (h : s.next? = none) (found : Array Item) :
    s.drain found = (found, s) := by
  rw [drain]
  split
  · rfl
  · next hs => rw [h] at hs; cases hs

theorem drain_of_some {s t : Source} {item : Item} (h : s.next? = some (item, t))
    (found : Array Item) : s.drain found = t.drain (found.push item) := by
  rw [drain]
  split
  · next hs => rw [h] at hs; cases hs
  · next hs =>
    rw [h] at hs
    cases hs
    rfl

/-- Reading on from `s` puts its items after those found before. -/
theorem drain_toList (s : Source) (found : Array Item) :
    (s.drain found).1.toList = found.toList ++ s.items := by
  induction hk : s.remaining using Nat.strongRecOn generalizing s found with
  | ind k ih =>
    subst hk
    cases hs : s.next? with
    | none => rw [items, drain_of_none hs, drain_of_none hs, Array.toList_empty, List.append_nil]
    | some next =>
      obtain ⟨item, t⟩ := next
      have hlt := next?_remaining hs
      rw [items, drain_of_some hs, drain_of_some hs, ih _ hlt t _ rfl, ih _ hlt t _ rfl]
      simp

theorem items_of_none {s : Source} (h : s.next? = none) : s.items = [] := by
  rw [items, drain_of_none h, Array.toList_empty]

theorem items_of_some {s t : Source} {item : Item} (h : s.next? = some (item, t)) :
    s.items = item :: t.items := by
  rw [items, drain_of_some h, drain_toList]
  rfl

/-- The items of a text whose first line has this number. -/
def itemsFrom (line : Nat) (text : List Char) : List Item := items ⟨text, line, false⟩

theorem itemsFrom_nil (line : Nat) : itemsFrom line [] = [.ok (.atEnd line)] := by
  have hend : next? ⟨[], line, false⟩ = some (.ok (.atEnd line), ⟨[], line, true⟩) := by
    rw [next?]
    rfl
  have hnone : next? ⟨[], line, true⟩ = none := by
    rw [next?]
    rfl
  rw [itemsFrom, items_of_some hend, items_of_none hnone]

/-- What a segment yields, at the line of its last character. -/
def itemsOf (cut : Segment.Cut) (line : Nat) : List Item :=
  match cut.kind with
  | .blank | .comment => []
  | .token kind => [.ok ⟨kind, String.ofList cut.text, line⟩]
  | .fault fault => [.error ⟨.lexical fault, line⟩]

theorem next?_cons (line : Nat) (c : Char) (cs : List Char) :
    next? ⟨c :: cs, line, false⟩ =
      let cut := Segment.first c cs
      let line := line + newlines cut.text
      let after : Source := ⟨cut.rest, line, false⟩
      match cut.kind with
      | .blank | .comment => after.next?
      | .token kind => some (.ok ⟨kind, String.ofList cut.text, line⟩, after)
      | .fault fault => some (.error ⟨.lexical fault, line⟩, after) := by
  rw [next?]
  rfl

theorem items_congr {s t : Source} (h : s.next? = t.next?) : s.items = t.items := by
  cases ht : t.next? with
  | none => rw [items_of_none ht, items_of_none (h.trans ht)]
  | some next => rw [items_of_some ht, items_of_some (h.trans ht)]

/-- The first segment yields its item, then comes the rest. -/
theorem itemsFrom_cons (line : Nat) (c : Char) (cs : List Char) :
    itemsFrom line (c :: cs) =
      itemsOf (Segment.first c cs) (line + newlines (Segment.first c cs).text) ++
        itemsFrom (line + newlines (Segment.first c cs).text) (Segment.first c cs).rest := by
  have hnext := next?_cons line c cs
  unfold itemsFrom itemsOf
  simp only at hnext
  split at hnext
  · exact items_congr hnext
  · exact items_congr hnext
  · exact items_of_some hnext
  · exact items_of_some hnext

end Source

/-- A token as scanning finds them: not the end, and not a keyword if it is a name. -/
structure Token.Found (t : Token) : Prop where
  ne_end : t.kind ≠ .endOfSource
  name : t.kind = .identifier → Keyword.ofText? t.text = none

namespace Segment

/-- Induction over the segments of a text: each text but the empty one has a first segment and what comes
behind it. -/
@[elab_as_elim]
theorem text_induction {motive : List Char → Prop} (nil : motive [])
    (cons : ∀ c cs, motive (first c cs).rest → motive (c :: cs)) (text : List Char) :
    motive text := by
  induction hn : text.length using Nat.strongRecOn generalizing text with
  | ind n ih =>
    cases text with
    | nil => exact nil
    | cons c cs =>
      have hlen := first_rest_length c cs
      rw [List.length_cons] at hn
      exact cons c cs (ih _ (by omega) _ rfl)

/-- If the segment is a token, then one that can be found, on whatever line. -/
def Cut.Sound (cut : Cut) : Prop :=
  ∀ kind line, cut.kind = .token kind → Token.Found ⟨kind, String.ofList cut.text, line⟩

theorem word_sound (cs : List Char) : (word cs).Sound := by
  rintro kind line ⟨⟩
  cases hk : Keyword.ofText? (String.ofList (cs.takeWhile isNamePart)) with
  | none => exact ⟨nofun, fun _ => hk⟩
  | some keyword => exact ⟨nofun, nofun⟩

theorem numeral_sound (cs : List Char) : (numeral cs).Sound := by
  intro kind line h
  unfold numeral at h
  split at h
  · split at h <;> cases h <;> exact ⟨nofun, nofun⟩
  · cases h
    exact ⟨nofun, nofun⟩

theorem quoted_sound (cs : List Char) : (quoted cs).Sound := by
  intro kind line h
  unfold quoted at h
  split at h <;> cases h
  exact ⟨nofun, nofun⟩

theorem symbol_sound (s : Symbol) (c : Char) (cs : List Char) : (symbol s c cs).Sound := by
  intro kind line h
  unfold symbol at h
  split at h <;> cases h <;> exact ⟨nofun, nofun⟩

theorem first_sound (c : Char) (cs : List Char) : (first c cs).Sound := by
  unfold first
  split
  · exact nofun
  split
  · exact quoted_sound cs
  split
  · exact numeral_sound _
  split
  · exact word_sound _
  split
  · exact nofun
  split
  · exact symbol_sound _ c cs
  · exact nofun

end Segment

namespace Source

theorem newlines_append (text more : List Char) :
    newlines (text ++ more) = newlines text + newlines more := List.count_append ..

theorem newlines_cons (c : Char) (cs : List Char) : newlines (c :: cs) =
    newlines (Segment.first c cs).text + newlines (Segment.first c cs).rest := by
  rw [← newlines_append, Segment.first_text_append_rest]

/-- A token that a segment yields is the segment with its line. -/
theorem of_mem_itemsOf {cut : Segment.Cut} {line : Nat} {t : Token} (h : .ok t ∈ itemsOf cut line) :
    cut.kind = .token t.kind ∧ t = ⟨t.kind, String.ofList cut.text, line⟩ := by
  unfold itemsOf at h
  split at h
  · cases h
  · cases h
  · next kind hkind =>
    obtain rfl := Except.ok.inj (List.mem_singleton.1 h)
    exact ⟨hkind, rfl⟩
  · cases List.mem_singleton.1 h

/-- Every text yields items that can be found, and then its end. -/
theorem itemsFrom_eq_append_end (line : Nat) (text : List Char) :
    ∃ items : List Item, itemsFrom line text =
        items ++ [.ok (.atEnd (line + newlines text))] ∧
      ∀ t, .ok t ∈ items → Token.Found t := by
  induction text using Segment.text_induction generalizing line with
  | nil => exact ⟨[], by rw [itemsFrom_nil]; rfl, by simp⟩
  | cons c cs ih =>
    obtain ⟨later, hlater, hfound⟩ := ih (line + newlines (Segment.first c cs).text)
    refine ⟨itemsOf (Segment.first c cs) (line + newlines (Segment.first c cs).text) ++ later,
      ?_, ?_⟩
    · rw [itemsFrom_cons, hlater, newlines_cons, List.append_assoc, Nat.add_assoc]
    · intro t ht
      rcases List.mem_append.1 ht with ht | ht
      · obtain ⟨hkind, htoken⟩ := of_mem_itemsOf ht
        rw [htoken]
        exact Segment.first_sound c cs t.kind _ hkind
      · exact hfound t ht

end Source

namespace Scan

theorem eq_map_of_ofItems {items : List Source.Item} (h : (ofItems items).faults = []) :
    items = (ofItems items).tokens.map .ok := by
  induction items with
  | nil => rfl
  | cons item rest ih =>
    cases item with
    | ok t => exact congrArg (.ok t :: ·) (ih h)
    | error fault => cases h

theorem ofItems_map_ok (ts : List Token) : ofItems (ts.map .ok) = ⟨ts, []⟩ := by
  induction ts with
  | nil => rfl
  | cons t rest ih =>
    show Scan.mk (t :: (ofItems (rest.map .ok)).tokens) (ofItems (rest.map .ok)).faults = _
    rw [ih]

/-- The tokens of a text: those that were found, then the end. -/
theorem tokens_eq_append_end (text : String) :
    ∃ body line, (ofText text).tokens = body ++ [.atEnd line] ∧ ∀ t ∈ body, t.Found := by
  obtain ⟨items, hitems, hfound⟩ := Source.itemsFrom_eq_append_end 1 text.toList
  refine ⟨items.filterMap Except.toOption, 1 + Source.newlines text.toList, ?_, ?_⟩
  · show (Source.itemsFrom 1 text.toList).filterMap Except.toOption = _
    rw [hitems, List.filterMap_append]
    rfl
  · intro t ht
    obtain ⟨item, hitem, hok⟩ := List.mem_filterMap.1 ht
    cases item with
    | error fault => cases hok
    | ok u =>
      cases hok
      exact hfound t hitem

end Scan

end Lox
