import Lox.Proofs.Token.Items

/-!
# Joined texts

Scanning respects line breaks. When a text without faults is followed by a line break and more text,
its segments stay what they are, and what follows is scanned as if alone, on later lines.
-/

namespace Lox

namespace Segment

/-- What stops at a character that more text begins with stops there, whatever comes before. -/
theorem takeWhile_append_cons {p : Char → Bool} {c : Char} (h : p c = false) (cs rest : List Char) :
    (cs ++ c :: rest).takeWhile p = cs.takeWhile p ∧
      (cs ++ c :: rest).dropWhile p = cs.dropWhile p ++ c :: rest := by
  induction cs with
  | nil => simp [h]
  | cons d cs ih =>
    by_cases hd : p d = true
    · simp [hd, ih]
    · simp [hd]

/-- The same segment with more text after it. -/
def Cut.followedBy (cut : Cut) (more : List Char) : Cut := { cut with rest := cut.rest ++ more }

variable (rest : List Char)

theorem word_append (cs : List Char) :
    word (cs ++ '\n' :: rest) = (word cs).followedBy ('\n' :: rest) := by
  obtain ⟨htake, hdrop⟩ := takeWhile_append_cons (p := isNamePart) (c := '\n') rfl cs rest
  unfold word
  rw [htake, hdrop]
  rfl

theorem comment_append (cs : List Char) :
    comment (cs ++ '\n' :: rest) = (comment cs).followedBy ('\n' :: rest) := by
  obtain ⟨htake, hdrop⟩ := takeWhile_append_cons (p := (· ≠ '\n')) (c := '\n') rfl cs rest
  unfold comment
  rw [htake, hdrop]
  rfl

theorem symbol_append (s : Symbol) (c : Char) (cs : List Char) :
    symbol s c (cs ++ '\n' :: rest) = (symbol s c cs).followedBy ('\n' :: rest) := by
  cases cs with
  | nil => rfl
  | cons d cs =>
    by_cases hd : d = '='
    · subst hd
      unfold symbol
      cases s.withEqual? <;> rfl
    · have hplain : ∀ more, symbol s c (d :: more) = ⟨.token (.symbol s), [c], d :: more⟩ := by
        intro more
        unfold symbol
        split
        · next heq _ => exact absurd (List.cons.inj heq).1 hd
        · rfl
      rw [List.cons_append, hplain, hplain]
      rfl

/-- A numeral ends at a line break: a point before it has no digit after it. -/
theorem numeral_append (cs : List Char) :
    numeral (cs ++ '\n' :: rest) = (numeral cs).followedBy ('\n' :: rest) := by
  obtain ⟨htake, hdrop⟩ := takeWhile_append_cons (p := Char.isDigit) (c := '\n') rfl cs rest
  unfold numeral
  rw [htake, hdrop]
  generalize cs.dropWhile Char.isDigit = after
  rcases after with _ | ⟨c, _ | ⟨d, more⟩⟩
  · rfl
  · by_cases hc : c = '.'
    · subst hc
      rfl
    · simp [Cut.followedBy, hc]
  · by_cases hc : c = '.'
    · obtain ⟨htake, hdrop⟩ := takeWhile_append_cons (p := Char.isDigit) (c := '\n') rfl more rest
      by_cases hd : d.isDigit = true
      · simp [hc, hd, htake, hdrop, Cut.followedBy]
      · simp [hc, hd, Cut.followedBy]
    · simp [Cut.followedBy, hc]

/-- A string that ends is not changed by what follows it. -/
theorem quoted_append (cs : List Char) (h : (quoted cs).kind ≠ .fault .unterminatedString) :
    quoted (cs ++ '\n' :: rest) = (quoted cs).followedBy ('\n' :: rest) := by
  unfold quoted at h ⊢
  rcases hdrop : cs.dropWhile (· ≠ '"') with _ | ⟨q, more⟩
  · rw [hdrop] at h
    exact absurd rfl h
  · have hlen : (cs.takeWhile (· ≠ '"')).length ≠ cs.length := by
      intro hlen
      have hall := congrArg List.length (List.takeWhile_append_dropWhile (p := (· ≠ '"')) (l := cs))
      rw [List.length_append, hdrop, hlen, List.length_cons] at hall
      omega
    rw [List.takeWhile_append, if_neg hlen, List.dropWhile_append, hdrop]
    rfl

/-- A line break and more text after a text change no segment but a string that does not end. -/
theorem first_append (c : Char) (cs : List Char)
    (h : (first c cs).kind ≠ .fault .unterminatedString) :
    first c (cs ++ '\n' :: rest) = (first c cs).followedBy ('\n' :: rest) := by
  have hhead : (cs ++ '\n' :: rest).head? = some '/' ↔ cs.head? = some '/' := by
    cases cs <;> simp
  unfold first at h ⊢
  simp only [hhead]
  by_cases hblank : isBlank c = true
  · simp only [if_pos hblank]
    rfl
  simp only [if_neg hblank] at h ⊢
  by_cases hquote : c = '"'
  · simp only [if_pos hquote] at h ⊢
    exact quoted_append rest cs h
  simp only [if_neg hquote]
  by_cases hdigit : c.isDigit = true
  · simp only [if_pos hdigit]
    exact numeral_append rest (c :: cs)
  simp only [if_neg hdigit]
  by_cases hname : isNameStart c = true
  · simp only [if_pos hname]
    exact word_append rest (c :: cs)
  simp only [if_neg hname]
  by_cases hcomment : c = '/' ∧ cs.head? = some '/'
  · simp only [if_pos hcomment]
    exact comment_append rest (c :: cs)
  simp only [if_neg hcomment]
  cases Symbol.ofChar? c with
  | some s => exact symbol_append rest s c cs
  | none => rfl

end Segment

/-- The same token some lines further down. -/
def Token.later (lines : Nat) (t : Token) : Token := { t with line := t.line + lines }

/-- The same fault some lines further down. -/
def Diagnostic.later (lines : Nat) (fault : Diagnostic) : Diagnostic :=
  { fault with line := fault.line + lines }

namespace Source

/-- The same item some lines further down. -/
def Item.later (lines : Nat) : Item → Item
  | .ok t => .ok (t.later lines)
  | .error fault => .error { fault with line := fault.line + lines }

theorem itemsOf_later (cut : Segment.Cut) (line lines : Nat) :
    itemsOf cut (line + lines) = (itemsOf cut line).map (Item.later lines) := by
  unfold itemsOf
  cases cut.kind <;> rfl

/-- A text that starts further down yields the same items, that much further down. -/
theorem itemsFrom_later (line lines : Nat) (text : List Char) :
    itemsFrom (line + lines) text = (itemsFrom line text).map (Item.later lines) := by
  induction text using Segment.text_induction generalizing line with
  | nil =>
    rw [itemsFrom_nil, itemsFrom_nil]
    rfl
  | cons c cs ih =>
    have hrest := ih (line + newlines (Segment.first c cs).text)
    rw [itemsFrom_cons, itemsFrom_cons, List.map_append, ← itemsOf_later, ← hrest,
      Nat.add_right_comm]

theorem itemsFrom_newline (line : Nat) (text : List Char) :
    itemsFrom line ('\n' :: text) = itemsFrom (line + 1) text := by
  rw [itemsFrom_cons]
  rfl

/-- A text without faults and the text on the lines after it are scanned one after the other. -/
theorem itemsFrom_append (line : Nat) (text : List Char)
    (h : ∀ fault, .error fault ∉ itemsFrom line text) :
    ∃ items, itemsFrom line text = items ++ [.ok (.atEnd (line + newlines text))] ∧
      ∀ rest, itemsFrom line (text ++ '\n' :: rest) =
        items ++ itemsFrom (line + newlines text + 1) rest := by
  induction text using Segment.text_induction generalizing line with
  | nil =>
    refine ⟨[], itemsFrom_nil line, fun rest => ?_⟩
    exact itemsFrom_newline line rest
  | cons c cs ih =>
    have hcons := itemsFrom_cons line c cs
    have hkind : (Segment.first c cs).kind ≠ .fault .unterminatedString := by
      intro hkind
      apply h
      rw [hcons, itemsOf, hkind]
      exact List.mem_append_left _ (List.mem_singleton.2 rfl)
    obtain ⟨items, hitems, hjoined⟩ := ih (line + newlines (Segment.first c cs).text)
      fun fault hmem => h fault (hcons ▸ List.mem_append_right _ hmem)
    refine ⟨itemsOf (Segment.first c cs) (line + newlines (Segment.first c cs).text) ++ items,
      ?_, fun rest => ?_⟩
    · rw [hcons, hitems, newlines_cons, List.append_assoc, Nat.add_assoc]
    · rw [List.cons_append, itemsFrom_cons, Segment.first_append rest c cs hkind]
      have hrest := hjoined rest
      rw [Nat.add_assoc line, ← newlines_cons] at hrest
      rw [List.append_assoc, ← hrest]
      rfl

end Source

namespace Scan

/-- Scanning the text finds these tokens before its end, and no fault. -/
def Finds (source : String) (body : List Token) : Prop :=
  ∃ line, (ofText source).tokens = body ++ [.atEnd line] ∧ (ofText source).faults = []

theorem finds_empty : Finds "" [] := by
  refine ⟨1, ?_, ?_⟩
  · show (Source.itemsFrom 1 []).filterMap Except.toOption = _
    rw [Source.itemsFrom_nil]
    rfl
  · show (Source.itemsFrom 1 []).filterMap _ = []
    rw [Source.itemsFrom_nil]
    rfl

theorem ofItems_append (items others : List Source.Item) :
    (ofItems (items ++ others)).tokens = (ofItems items).tokens ++ (ofItems others).tokens ∧
      (ofItems (items ++ others)).faults = (ofItems items).faults ++ (ofItems others).faults :=
  ⟨List.filterMap_append, List.filterMap_append⟩

theorem ofItems_later (lines : Nat) (items : List Source.Item) :
    (ofItems (items.map (Source.Item.later lines))).tokens =
        (ofItems items).tokens.map (Token.later lines) ∧
      (ofItems (items.map (Source.Item.later lines))).faults =
        (ofItems items).faults.map (Diagnostic.later lines) := by
  induction items with
  | nil => exact ⟨rfl, rfl⟩
  | cons item rest ih =>
    cases item with
    | ok t => exact ⟨congrArg (t.later lines :: ·) ih.1, ih.2⟩
    | error fault => exact ⟨ih.1, congrArg (fault.later lines :: ·) ih.2⟩

variable {a b : String} {body others : List Token}

theorem Finds.error_notMem (h : Finds a body) (fault : Diagnostic) :
    .error fault ∉ Source.itemsFrom 1 a.toList := by
  obtain ⟨line, -, hfaults⟩ := h
  intro hmem
  have hfault : fault ∈ (ofText a).faults := List.mem_filterMap.2 ⟨_, hmem, rfl⟩
  rw [hfaults] at hfault
  cases hfault

/-- After a text without faults and a line break, any text is scanned as if alone, some lines further
down. -/
theorem Finds.before (h : Finds a body) (b : String) :
    (ofText (a ++ "\n" ++ b)).tokens =
        body ++ (ofText b).tokens.map (Token.later (Source.newlines a.toList + 1)) ∧
      (ofText (a ++ "\n" ++ b)).faults =
        (ofText b).faults.map (Diagnostic.later (Source.newlines a.toList + 1)) := by
  obtain ⟨items, hitems, hjoined⟩ := Source.itemsFrom_append 1 a.toList h.error_notMem
  obtain ⟨line, htokens, hfaults⟩ := h
  let lines := Source.newlines a.toList + 1
  have hofText : ofText (a ++ "\n" ++ b) =
      ofItems (items ++ (Source.itemsFrom 1 b.toList).map (Source.Item.later lines)) := by
    have hlist : (a ++ "\n" ++ b).toList = a.toList ++ '\n' :: b.toList := by simp
    have hlater := Source.itemsFrom_later 1 lines b.toList
    show ofItems (Source.itemsFrom 1 (a ++ "\n" ++ b).toList) = _
    rw [hlist, hjoined, ← hlater, Nat.add_assoc]
  have hfirst : ofText a = ofItems (items ++ [.ok (.atEnd (1 + Source.newlines a.toList))]) :=
    congrArg ofItems hitems
  rw [hfirst, (ofItems_append _ _).1] at htokens
  rw [hfirst, (ofItems_append _ _).2] at hfaults
  have hbody : (ofItems items).tokens = body := List.append_inj_left' htokens rfl
  have hnone : (ofItems items).faults = [] := (List.append_eq_nil_iff.1 hfaults).1
  obtain ⟨hsecond, hsecond'⟩ := ofItems_later lines (Source.itemsFrom 1 b.toList)
  constructor
  · rw [hofText, (ofItems_append _ _).1, hbody, hsecond]
    rfl
  · rw [hofText, (ofItems_append _ _).2, hnone, hsecond']
    rfl

/-- Two texts with a line break between them have the tokens of both. -/
theorem Finds.join (h : Finds a body) (k : Finds b others) :
    ∃ lines, Finds (a ++ "\n" ++ b) (body ++ others.map (Token.later lines)) := by
  obtain ⟨htokens, hfaults⟩ := h.before b
  obtain ⟨line, hothers, hnone⟩ := k
  let lines := Source.newlines a.toList + 1
  refine ⟨lines, line + lines, ?_, ?_⟩
  · rw [htokens, hothers, List.map_append, List.append_assoc]
    rfl
  · rw [hfaults, hnone]
    rfl

end Scan

end Lox
