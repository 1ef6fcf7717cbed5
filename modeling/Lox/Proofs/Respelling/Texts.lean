import Mathlib.Data.List.TakeWhile
import Lox.Proofs.Respelling.Phrases
import Lox.Proofs.Token.Joining
import Lox.Proofs.Token.Lexeme

/-!
# Respelled texts

In a text some names `x` can be spelled `y`, and nothing else in it changes its meaning: all other segments
end where they did. So for every choice of tokens to respell there is a text that has them respelled.
-/

namespace Lox

/-- What may be a name: it is spelled like one, and it is no keyword. -/
structure IsName (name : String) : Prop where
  chars : ∃ c cs, name.toList = c :: cs ∧ isNameStart c = true ∧ ∀ d ∈ cs, isNamePart d = true
  ordinary : Keyword.ofText? name = none

theorem IsName.ordinaryName {name : String} (h : IsName name) : OrdinaryName name := by
  constructor <;> rintro rfl <;> exact absurd h.ordinary (by decide)

/-- The same text, but for names `x` that are spelled `y`. -/
inductive Text.Respelled (x y : String) : List Char → List Char → Prop where
  | nil : Text.Respelled x y [] []
  | kept {c cs others} (rest : Text.Respelled x y (Segment.first c cs).rest others) :
      Text.Respelled x y (c :: cs) ((Segment.first c cs).text ++ others)
  | changed {c cs others} (kind : (Segment.first c cs).kind = .token .identifier)
      (text : String.ofList (Segment.first c cs).text = x)
      (rest : Text.Respelled x y (Segment.first c cs).rest others) :
      Text.Respelled x y (c :: cs) (y.toList ++ others)

/-! ### Looking ahead -/

/-- Both texts end, or they begin with the same character, or with a name. After a point this holds of
what follows, since a digit there makes a fraction. -/
inductive Text.Similar : List Char → List Char → Prop where
  | nil : Text.Similar [] []
  | name {c d cs ds} (hc : isNameStart c = true) (hd : isNameStart d = true) :
      Text.Similar (c :: cs) (d :: ds)
  | char {c cs ds} (next : c = '.' → Text.Similar cs ds) : Text.Similar (c :: cs) (c :: ds)

/-- The text does not go on with such a character. -/
def Text.Stops (p : Char → Bool) (text : List Char) : Prop := ∀ c ∈ text.head?, p c = false

/-- What follows a numeral is no fraction of it. -/
def Text.NoFraction (text : List Char) : Prop := ∀ d rest, text = '.' :: d :: rest → d.isDigit = false

namespace Text

variable {p : Char → Bool} {s t : List Char}

theorem stops_cons {c : Char} {cs : List Char} : Stops p (c :: cs) ↔ p c = false := by
  simp [Stops]

theorem stops_dropWhile (p : Char → Bool) (text : List Char) : Stops p (text.dropWhile p) := by
  have h := List.head?_dropWhile_not p text
  intro c hc
  rw [Option.mem_def.1 hc] at h
  simpa using h

/-- Such characters and no more are cut off. -/
theorem span_append (hs : ∀ c ∈ s, p c = true) (ht : Stops p t) :
    (s ++ t).takeWhile p = s ∧ (s ++ t).dropWhile p = t := by
  rw [List.takeWhile_append_of_pos hs, List.dropWhile_append_of_pos hs]
  cases t with
  | nil => exact ⟨List.append_nil s, rfl⟩
  | cons c cs =>
    have hc := stops_cons.1 ht
    simp [hc]

theorem span_takeWhile (p : Char → Bool) (s : List Char) (ht : Stops p t) :
    (s.takeWhile p ++ t).takeWhile p = s.takeWhile p ∧ (s.takeWhile p ++ t).dropWhile p = t :=
  span_append (fun _ hc => List.mem_takeWhile_imp hc) ht

theorem isDigit_of_isNameStart {c : Char} (h : isNameStart c = true) : c.isDigit = false := by
  have hno := (isNameStart_iff.1 h).not_isDigit
  rw [← isDigit_iff] at hno
  exact Bool.eq_false_iff.2 hno

theorem ne_of_isNameStart {c d : Char} (hc : isNameStart c = true) (hd : isNameStart d = false) : c ≠ d := by
  rintro rfl
  rw [hd] at hc
  cases hc

/-- What tells no name from another stops at both texts or at none. -/
theorem Similar.stops (h : Similar s t) (hp : ∀ c d, isNameStart c = true → isNameStart d = true → p c = p d)
    (hs : Stops p s) : Stops p t := by
  cases h with
  | nil => exact hs
  | name hc hd => exact stops_cons.2 ((hp _ _ hc hd).symm.trans (stops_cons.1 hs))
  | char => exact stops_cons.2 (stops_cons.1 hs)

theorem Similar.noFraction (h : Similar s t) (hs : NoFraction s) : NoFraction t := by
  rintro d rest rfl
  cases h with
  | name _ hd => exact absurd hd (by decide)
  | char next =>
    cases next rfl with
    | name _ hd => exact isDigit_of_isNameStart hd
    | char => exact hs d _ rfl

end Text

/-! ### Segments that stay -/

namespace Segment

open Text

variable {other : List Char}

/-- The same segment before another text. -/
def Cut.before (cut : Cut) (other : List Char) : Cut := { cut with rest := other }

/-- Digits without a fraction after them are a numeral. -/
theorem numeral_whole {whole : List Char} (hwhole : ∀ c ∈ whole, c.isDigit = true)
    (h : Stops Char.isDigit other) (hnone : NoFraction other) :
    numeral (whole ++ other) = ⟨.token (.number (numeralValue whole [])), whole, other⟩ := by
  obtain ⟨htake, hdrop⟩ := span_append hwhole h
  unfold numeral
  rw [htake, hdrop]
  split
  · next d rest => rw [if_neg (Bool.eq_false_iff.1 (hnone d rest rfl))]
  · rfl

theorem numeral_fraction {whole fraction : List Char} (hwhole : ∀ c ∈ whole, c.isDigit = true)
    (hne : fraction ≠ []) (hfraction : ∀ c ∈ fraction, c.isDigit = true) (h : Stops Char.isDigit other) :
    numeral (whole ++ '.' :: fraction ++ other) =
      ⟨.token (.number (numeralValue whole fraction)), whole ++ '.' :: fraction, other⟩ := by
  obtain ⟨d, rest, rfl⟩ := List.exists_cons_of_ne_nil hne
  rw [List.forall_mem_cons] at hfraction
  obtain ⟨htake, hdrop⟩ := span_append (t := '.' :: d :: rest ++ other) hwhole (stops_cons.2 rfl)
  obtain ⟨htake', hdrop'⟩ := span_append hfraction.2 h
  rw [List.append_assoc]
  unfold numeral
  rw [htake, hdrop]
  simp [hfraction.1, htake', hdrop']

theorem quoted_before {cs : List Char} (h : Similar (quoted cs).rest other) {ds : List Char}
    (htext : (quoted cs).text = '"' :: ds) : quoted (ds ++ other) = (quoted cs).before other := by
  unfold quoted at h htext ⊢
  cases hdrop : cs.dropWhile (· ≠ '"') with
  | nil =>
    rw [hdrop] at h htext
    cases h
    obtain rfl : _ = ds := (List.cons.inj htext).2
    obtain ⟨htake, hdrop⟩ := span_takeWhile (t := []) (· ≠ '"') cs nofun
    rw [htake, hdrop]
    rfl
  | cons q rest =>
    rw [hdrop] at htext
    obtain rfl : cs.takeWhile (· ≠ '"') ++ [q] = ds := (List.cons.inj htext).2
    have hq : Stops (· ≠ '"') (q :: rest) := hdrop ▸ stops_dropWhile (· ≠ '"') cs
    obtain ⟨htake, hdrop⟩ := span_takeWhile (t := q :: other) (· ≠ '"') cs (stops_cons.2 (stops_cons.1 hq))
    rw [List.append_assoc, List.singleton_append, htake, hdrop]
    rfl

theorem numeral_before {cs : List Char} (h : Similar (numeral cs).rest other) :
    numeral ((numeral cs).text ++ other) = (numeral cs).before other := by
  have hwhole : ∀ c ∈ cs.takeWhile Char.isDigit, c.isDigit = true := fun c hc => List.mem_takeWhile_imp hc
  have hstops := stops_dropWhile Char.isDigit cs
  have hdigits : ∀ c d : Char, isNameStart c = true → isNameStart d = true → c.isDigit = d.isDigit :=
    fun c d hc hd => (isDigit_of_isNameStart hc).trans (isDigit_of_isNameStart hd).symm
  by_cases hnone : NoFraction (cs.dropWhile Char.isDigit)
  · have hcut : numeral cs = ⟨.token (.number (numeralValue (cs.takeWhile Char.isDigit) [])),
        cs.takeWhile Char.isDigit, cs.dropWhile Char.isDigit⟩ := by
      have hcut := numeral_whole hwhole hstops hnone
      rwa [List.takeWhile_append_dropWhile] at hcut
    rw [hcut] at h ⊢
    exact numeral_whole hwhole (h.stops hdigits hstops) (h.noFraction hnone)
  · obtain ⟨d, rest, hdrop, hd⟩ : ∃ d rest, cs.dropWhile Char.isDigit = '.' :: d :: rest ∧
        d.isDigit = true := by
      unfold NoFraction at hnone
      push Not at hnone
      simpa using hnone
    have hfraction : ∀ c ∈ d :: rest.takeWhile Char.isDigit, c.isDigit = true :=
      List.forall_mem_cons.2 ⟨hd, fun c hc => List.mem_takeWhile_imp hc⟩
    have hstops := stops_dropWhile Char.isDigit rest
    have hcut := numeral_fraction hwhole (List.cons_ne_nil _ _) hfraction hstops
    have hcs : cs.takeWhile Char.isDigit ++ '.' :: (d :: rest.takeWhile Char.isDigit) ++
        rest.dropWhile Char.isDigit = cs := by
      rw [List.append_assoc, List.cons_append, List.cons_append, List.takeWhile_append_dropWhile, ← hdrop,
        List.takeWhile_append_dropWhile]
    rw [hcs] at hcut
    rw [hcut] at h ⊢
    exact numeral_fraction hwhole (List.cons_ne_nil _ _) hfraction (h.stops hdigits hstops)

theorem word_before {cs : List Char} (h : Similar (word cs).rest other) :
    word ((word cs).text ++ other) = (word cs).before other := by
  have hstops : Stops isNamePart other := h.stops
    (fun c d hc hd => (isNamePart_of_isNameStart hc).trans (isNamePart_of_isNameStart hd).symm)
    (stops_dropWhile isNamePart cs)
  obtain ⟨htake, hdrop⟩ := span_takeWhile isNamePart cs hstops
  unfold word
  rw [htake, hdrop]
  rfl

theorem comment_before {cs : List Char} (h : Similar (comment cs).rest other) :
    comment ((comment cs).text ++ other) = (comment cs).before other := by
  have hline : ∀ c, isNameStart c = true → decide (c ≠ '\n') = true :=
    fun c hc => decide_eq_true (ne_of_isNameStart hc (by decide))
  have hstops : Stops (· ≠ '\n') other := h.stops
    (fun c d hc hd => (hline c hc).trans (hline d hd).symm) (stops_dropWhile (· ≠ '\n') cs)
  obtain ⟨htake, hdrop⟩ := span_takeWhile (· ≠ '\n') cs hstops
  unfold comment
  rw [htake, hdrop]
  rfl

theorem symbol_plain {s : Symbol} {cs : List Char} (h : s.withEqual? ≠ none → Stops (· = '=') cs) (c : Char) :
    symbol s c cs = ⟨.token (.symbol s), [c], cs⟩ := by
  unfold symbol
  split
  · next heq =>
    exact absurd (stops_cons.1 (h (by rw [heq]; exact nofun))) (by decide)
  · rfl

/-- No name begins with a sign. -/
theorem stops_of_similar {sign : Char} (hsign : isNameStart sign = false) {s t : List Char} (h : Similar s t)
    (hs : Stops (· = sign) s) : Stops (· = sign) t := by
  refine h.stops (fun c d hc hd => ?_) hs
  rw [decide_eq_false (ne_of_isNameStart hc hsign), decide_eq_false (ne_of_isNameStart hd hsign)]

theorem symbol_before {s : Symbol} {c : Char} {cs ds : List Char} (h : Similar (symbol s c cs).rest other)
    (htext : (symbol s c cs).text = c :: ds) : symbol s c (ds ++ other) = (symbol s c cs).before other := by
  by_cases hplain : s.withEqual? ≠ none → Stops (· = '=') cs
  · rw [symbol_plain hplain] at h htext ⊢
    obtain rfl : [] = ds := (List.cons.inj htext).2
    rw [List.nil_append, symbol_plain fun hs => stops_of_similar (by decide) h (hplain hs)]
    rfl
  · obtain ⟨t, rest, ht, rfl⟩ : ∃ t rest, s.withEqual? = some t ∧ cs = '=' :: rest := by
      push Not at hplain
      obtain ⟨hsome, hequal⟩ := hplain
      obtain ⟨t, ht⟩ := Option.ne_none_iff_exists'.1 hsome
      cases cs with
      | nil => exact absurd nofun hequal
      | cons d rest =>
        rw [stops_cons] at hequal
        exact ⟨t, rest, ht, by simpa using hequal⟩
    unfold symbol at htext ⊢
    rw [ht] at htext ⊢
    obtain rfl : ['='] = ds := (List.cons.inj htext).2
    rfl

theorem first_of_isNameStart {c : Char} (h : isNameStart c = true) (cs : List Char) :
    first c cs = word (c :: cs) := by
  have hne : ∀ d, isNameStart d = false → c ≠ d := fun d hd => ne_of_isNameStart h hd
  have hblank : isBlank c = false := by
    simp [isBlank, hne ' ' (by decide), hne '\t' (by decide), hne '\r' (by decide), hne '\n' (by decide)]
  have hdigit := isDigit_of_isNameStart h
  unfold first
  rw [if_neg (Bool.eq_false_iff.1 hblank), if_neg (hne '"' (by decide)),
    if_neg (Bool.eq_false_iff.1 hdigit), if_pos h]

/-- What is a name is cut off as one. -/
theorem first_isName {name : String} (hn : IsName name) (h : Stops isNamePart other) :
    ∃ c cs, name.toList ++ other = c :: cs ∧
      first c cs = ⟨.token .identifier, name.toList, other⟩ := by
  obtain ⟨⟨c, cs, hname, hc, hcs⟩, hordinary⟩ := hn
  refine ⟨c, cs ++ other, by rw [hname, List.cons_append], ?_⟩
  have hparts : ∀ d ∈ c :: cs, isNamePart d = true :=
    List.forall_mem_cons.2 ⟨isNamePart_of_isNameStart hc, hcs⟩
  obtain ⟨htake, hdrop⟩ := span_append hparts h
  rw [first_of_isNameStart hc, ← List.cons_append]
  unfold word
  rw [htake, hdrop, ← hname]
  simp only [String.ofList_toList, hordinary]

/-- A segment stays when another text follows it that begins like the one that did. -/
theorem first_before {c : Char} {cs ds : List Char} (h : Similar (first c cs).rest other)
    (htext : (first c cs).text = c :: ds) : first c (ds ++ other) = (first c cs).before other := by
  by_cases hblank : isBlank c = true
  · have hfirst : ∀ more, first c more = ⟨.blank, [c], more⟩ := fun more => if_pos hblank
    rw [hfirst] at htext
    obtain rfl : [] = ds := (List.cons.inj htext).2
    rw [hfirst, hfirst]
    rfl
  by_cases hquote : c = '"'
  · have hfirst : ∀ more, first c more = quoted more := fun more => by
      unfold first
      rw [if_neg hblank, if_pos hquote]
    rw [hfirst] at h htext ⊢
    rw [hfirst]
    exact quoted_before h (hquote ▸ htext)
  by_cases hdigit : c.isDigit = true
  · have hfirst : ∀ more, first c more = numeral (c :: more) := fun more => by
      unfold first
      rw [if_neg hblank, if_neg hquote, if_pos hdigit]
    rw [hfirst] at h htext ⊢
    rw [hfirst, ← List.cons_append, ← htext]
    exact numeral_before h
  by_cases hname : isNameStart c = true
  · rw [first_of_isNameStart hname] at h htext ⊢
    rw [first_of_isNameStart hname, ← List.cons_append, ← htext]
    exact word_before h
  have hsign : ∀ more, ¬(c = '/' ∧ more.head? = some '/') → first c more =
      (Symbol.ofChar? c).elim ⟨.fault (.unexpectedCharacter c), [c], more⟩ (symbol · c more) :=
    fun more hmore => by
      unfold first
      rw [if_neg hblank, if_neg hquote, if_neg hdigit, if_neg hname, if_neg hmore]
      cases Symbol.ofChar? c <;> rfl
  by_cases hcomment : c = '/' ∧ cs.head? = some '/'
  · obtain ⟨rfl, hhead⟩ := hcomment
    obtain ⟨rest, rfl⟩ : ∃ rest, cs = '/' :: rest := List.head?_eq_some_iff.1 hhead
    rw [show first '/' ('/' :: rest) = comment ('/' :: '/' :: rest) from rfl] at h htext ⊢
    obtain rfl : '/' :: rest.takeWhile (· ≠ '\n') = ds := (List.cons.inj htext).2
    exact comment_before h
  have hmore : ¬(c = '/' ∧ (ds ++ other).head? = some '/') := by
    rintro ⟨rfl, hhead⟩
    have hslash : first '/' cs = ⟨.token (.symbol .slash), ['/'], cs⟩ :=
      (hsign cs hcomment).trans (symbol_plain (fun hs => absurd rfl hs) '/')
    rw [hslash] at h htext
    obtain rfl : [] = ds := (List.cons.inj htext).2
    have hstops : Stops (· = '/') cs := fun d hd => decide_eq_false fun he => hcomment ⟨rfl, he ▸ hd⟩
    exact absurd (stops_of_similar (by decide) h hstops '/' hhead) (by decide)
  rw [hsign cs hcomment] at h htext ⊢
  rw [hsign _ hmore]
  cases hsymbol : Symbol.ofChar? c with
  | some s =>
    rw [hsymbol] at h htext
    exact symbol_before h htext
  | none =>
    rw [hsymbol] at htext
    obtain rfl : [] = ds := (List.cons.inj htext).2
    rfl

/-- What is found to be a name begins like one. -/
theorem isNameStart_of_first {c : Char} {cs : List Char} (h : (first c cs).kind = .token .identifier) :
    isNameStart c = true := by
  unfold first at h
  split at h
  · cases h
  split at h
  · unfold quoted at h
    split at h <;> cases h
  split at h
  · unfold numeral at h
    split at h
    · split at h <;> cases h
    · cases h
  split at h
  · assumption
  split at h
  · cases h
  split at h
  · unfold symbol at h
    split at h <;> cases h
  · cases h

theorem exists_first_text (c : Char) (cs : List Char) : ∃ ds, (first c cs).text = c :: ds := by
  have htext := first_text_append_rest c cs
  obtain ⟨d, ds, hds⟩ := List.exists_cons_of_ne_nil (first_text_ne_nil c cs)
  rw [hds, List.cons_append] at htext
  exact ⟨ds, by rw [hds, (List.cons.inj htext).1]⟩

end Segment

/-! ### Items -/

section

variable {x y : String}

/-- Texts that are respelled look alike to what comes before them. -/
theorem Text.Respelled.similar (hy : IsName y) {s t : List Char} (h : Text.Respelled x y s t) :
    Text.Similar s t := by
  induction h with
  | nil => exact .nil
  | @kept c cs others _ ih =>
    obtain ⟨ds, hds⟩ := Segment.exists_first_text c cs
    rw [hds, List.cons_append]
    refine .char fun hc => ?_
    subst hc
    -- A point is a segment of its own.
    have hpoint : Segment.first '.' cs = ⟨.token (.symbol .dot), ['.'], cs⟩ :=
      Segment.symbol_plain (s := .dot) (fun hs => absurd rfl hs) '.'
    rw [hpoint] at ih hds
    obtain rfl : [] = ds := (List.cons.inj hds).2
    exact ih
  | changed hkind =>
    obtain ⟨⟨d, ds, hname, hd, -⟩, -⟩ := hy
    rw [hname, List.cons_append]
    exact .name (Segment.isNameStart_of_first hkind) hd

namespace Source

/-- A name is on one line. -/
theorem newlines_name {name : List Char} (h : ∀ c ∈ name, isNamePart c = true) : newlines name = 0 :=
  List.count_eq_zero.2 fun hmem => absurd (h _ hmem) (by decide)

theorem itemsFrom_kept (hy : IsName y) {c : Char} {cs other : List Char}
    (h : Text.Respelled x y (Segment.first c cs).rest other) (line : Nat) :
    itemsFrom line ((Segment.first c cs).text ++ other) =
      itemsOf (Segment.first c cs) (line + newlines (Segment.first c cs).text) ++
        itemsFrom (line + newlines (Segment.first c cs).text) other := by
  obtain ⟨ds, hds⟩ := Segment.exists_first_text c cs
  have hbefore := Segment.first_before (h.similar hy) hds
  have hcons := itemsFrom_cons line c (ds ++ other)
  rw [hbefore, ← List.cons_append, ← hds] at hcons
  exact hcons

theorem itemsFrom_isName {name : String} (hn : IsName name) {other : List Char}
    (h : Text.Stops isNamePart other) (line : Nat) :
    itemsFrom line (name.toList ++ other) = .ok ⟨.identifier, name, line⟩ :: itemsFrom line other := by
  obtain ⟨c, cs, htext, hfirst⟩ := Segment.first_isName hn h
  have hline : newlines name.toList = 0 := by
    obtain ⟨⟨c, cs, hname, hc, hcs⟩, -⟩ := hn
    rw [hname]
    exact newlines_name (List.forall_mem_cons.2 ⟨isNamePart_of_isNameStart hc, hcs⟩)
  rw [htext, itemsFrom_cons, hfirst, hline, itemsOf, String.ofList_toList]
  rfl

theorem itemsFrom_changed (hy : IsName y) {c : Char} {cs other : List Char}
    (hkind : (Segment.first c cs).kind = .token .identifier)
    (h : Text.Respelled x y (Segment.first c cs).rest other) (line : Nat) :
    itemsFrom line (y.toList ++ other) =
      .ok ⟨.identifier, y, line + newlines (Segment.first c cs).text⟩ ::
        itemsFrom (line + newlines (Segment.first c cs).text) other := by
  have hword := Segment.first_of_isNameStart (Segment.isNameStart_of_first hkind) cs
  have hsimilar := h.similar hy
  rw [hword] at hsimilar ⊢
  have hline : newlines (Segment.word (c :: cs)).text = 0 :=
    newlines_name fun d hd => List.mem_takeWhile_imp hd
  rw [hline]
  refine itemsFrom_isName hy (hsimilar.stops (fun a b ha hb => ?_) (Text.stops_dropWhile _ _)) line
  rw [isNamePart_of_isNameStart ha, isNamePart_of_isNameStart hb]

/-- For every choice of tokens to respell there is a text that is scanned as the respelled tokens. -/
theorem exists_respelled (hy : IsName y) (line : Nat) (text : List Char) {ts us : List Token}
    (h : itemsFrom line text = ts.map .ok) (hr : TokensRespelled x y ts us) :
    ∃ other, Text.Respelled x y text other ∧ itemsFrom line other = us.map .ok := by
  -- Segment by segment: what comes after a segment is respelled first, since the segment ends before it.
  induction text using Segment.text_induction generalizing line ts us with
  | nil =>
    rw [itemsFrom_nil] at h
    obtain rfl : ts = [.atEnd line] := by simpa using (List.map_eq_singleton_iff.1 h.symm)
    cases hr with | cons hlast hnone =>
    cases hnone
    cases hlast
    exact ⟨[], .nil, itemsFrom_nil line⟩
  | cons c cs ih =>
    rw [itemsFrom_cons] at h
    let here := line + newlines (Segment.first c cs).text
    cases hkind : (Segment.first c cs).kind with
    | blank | comment =>
      have hnone : itemsOf (Segment.first c cs) here = [] := by rw [itemsOf, hkind]
      rw [hnone, List.nil_append] at h
      obtain ⟨other, hother, hitems⟩ := ih here h hr
      exact ⟨_, .kept hother, by rw [itemsFrom_kept hy hother, hnone, hitems, List.nil_append]⟩
    | token kind =>
      have hone : itemsOf (Segment.first c cs) here =
          [.ok ⟨kind, String.ofList (Segment.first c cs).text, here⟩] := by rw [itemsOf, hkind]
      rw [hone] at h
      obtain ⟨t, ts, rfl, ht, hts⟩ := List.map_eq_cons_iff.1 h.symm
      obtain rfl : t = _ := Except.ok.inj ht
      cases hr with | @cons _ u _ us hfirst hlater =>
      obtain ⟨other, hother, hitems⟩ := ih here hts.symm hlater
      by_cases hsame : u = ⟨kind, String.ofList (Segment.first c cs).text, here⟩
      · refine ⟨_, .kept hother, ?_⟩
        rw [itemsFrom_kept hy hother, hone, hitems, hsame]
        rfl
      · obtain ⟨rfl, htext, rfl⟩ : kind = .identifier ∧ String.ofList (Segment.first c cs).text = x ∧
            u = ⟨.identifier, y, here⟩ := by
          cases hfirst with
          | kept => exact absurd rfl hsame
          | changed => exact ⟨rfl, rfl, rfl⟩
        refine ⟨_, .changed hkind htext hother, ?_⟩
        rw [itemsFrom_changed hy hkind hother, hitems]
        rfl
    | fault fault =>
      rw [itemsOf, hkind] at h
      obtain ⟨t, _, _, ht, -⟩ := List.map_eq_cons_iff.1 h.symm
      cases ht

end Source

namespace Scan

/-- For every choice of tokens to respell there is a text with the respelled tokens. -/
theorem Finds.exists_respelled (hy : IsName y) {source : String} {ts us : List Token} (h : Finds source ts)
    (hr : TokensRespelled x y ts us) :
    ∃ text : String, Text.Respelled x y source.toList text.toList ∧ Finds text us := by
  obtain ⟨line, htokens, hfaults⟩ := h
  have hitems : Source.itemsFrom 1 source.toList = (ts ++ [Token.atEnd line]).map .ok := by
    rw [← htokens]
    exact eq_map_of_ofItems hfaults
  have hall : TokensRespelled x y (ts ++ [.atEnd line]) (us ++ [.atEnd line]) :=
    List.rel_append hr (.cons (.kept _) .nil)
  obtain ⟨other, hother, hitems'⟩ := Source.exists_respelled hy 1 source.toList hitems hall
  have hscan : ofText (String.ofList other) = ⟨us ++ [.atEnd line], []⟩ := by
    show ofItems (Source.itemsFrom 1 (String.ofList other).toList) = _
    rw [String.toList_ofList, hitems', ofItems_map_ok]
  refine ⟨String.ofList other, ?_, line, ?_, ?_⟩
  · rwa [String.toList_ofList]
  · rw [hscan]
  · rw [hscan]

end Scan

end

end Lox
