import Lox.Proofs.Token.Segmentation

/-!
# Texts written out again

The tokens of a text survive being written out with other blanks and comments between them. What a text
spells is said by the segments that it falls into, so it is enough to see that every lexeme fits in front
of a blank.

## Implementation notes

Any blanks and comments may stand before the first token, but behind a token a blank has to come first:
two slashes behind a slash begin a comment one character earlier.
-/

namespace Lox

open Segment

/-! ### Gaps -/

/-- Text between tokens: blanks, and comments with the line breaks that end them. -/
inductive Gap : List Char → Prop where
  | nil : Gap []
  | blank {c rest} (hc : c ∈ [' ', '\t', '\r', '\n']) (h : Gap rest) : Gap (c :: rest)
  | comment {body rest} (hbody : '\n' ∉ body) (h : Gap rest) :
      Gap ('/' :: '/' :: body ++ '\n' :: rest)

/-- A gap that begins with a blank. -/
inductive Separator : List Char → Prop where
  | intro {c rest} (hc : c ∈ [' ', '\t', '\r', '\n']) (h : Gap rest) : Separator (c :: rest)

/-- Lexemes one after the other, with separators between them and possibly behind the last. -/
inductive Spaced : List String → List Char → Prop where
  | nil : Spaced [] []
  | last (lexeme : String) : Spaced [lexeme] lexeme.toList
  | cons (lexeme : String) {separator lexemes text} (hseparator : Separator separator)
      (h : Spaced lexemes text) : Spaced (lexeme :: lexemes) (lexeme.toList ++ separator ++ text)

/-! ### Lexemes before blanks -/

theorem isBlank_of_isNamePart {c : Char} (h : IsLetter c ∨ IsDigit c) : isBlank c = false := by
  rw [← isNamePart_iff] at h
  by_contra hblank
  have hmem := isBlank_iff.1 (Bool.eq_true_of_not_eq_false hblank)
  simp only [List.mem_cons, List.not_mem_nil, or_false] at hmem
  rcases hmem with rfl | rfl | rfl | rfl <;> exact absurd h (by decide)

theorem Symbol.isBlank_of_mem (s : Symbol) : ∀ c ∈ s.text.toList, isBlank c = false := by
  have hall : s.text.toList.all (fun c => !isBlank c) = true := by cases s <;> decide
  intro c hc
  simpa using List.all_eq_true.1 hall c hc

namespace Lexeme

variable {text other rest : List Char} {kind otherKind : Token.Kind}

/-- There are blanks only in strings. -/
theorem isBlank_of_mem (h : Lexeme text kind) (hquote : '"' ∉ text.head?) :
    ∀ c ∈ text, isBlank c = false := by
  cases h with
  | symbol s => exact s.isBlank_of_mem
  | whole _ hdigits => exact fun c hc => isBlank_of_isNamePart (.inr (hdigits c hc))
  | @fraction whole fraction _ _ hdigits =>
    intro c hc
    rcases List.mem_append.1 hc with hc | hc
    · exact isBlank_of_isNamePart (.inr (hdigits c (List.mem_append_left _ hc)))
    rcases List.mem_cons.1 hc with rfl | hc
    · rfl
    · exact isBlank_of_isNamePart (.inr (hdigits c (List.mem_append_right _ hc)))
  | string => exact absurd rfl hquote
  | keyword k => exact fun c hc => isBlank_of_isNamePart (.inl (k.isLetter_of_mem c hc))
  | name hc hcs =>
    intro d hd
    rcases List.mem_cons.1 hd with rfl | hd
    · exact isBlank_of_isNamePart (.inl hc)
    · exact isBlank_of_isNamePart (hcs d hd)

/-- No lexeme goes on with a blank where another one ends. -/
theorem not_longer {c : Char} {more : List Char} (h : Lexeme text kind)
    (hother : Lexeme (text ++ c :: more) otherKind) : isBlank c = false := by
  obtain ⟨d, ds, rfl⟩ := List.exists_cons_of_ne_nil h.ne_nil
  by_cases hquote : d = '"'
  · -- A string ends at its second quote.
    subst hquote
    obtain ⟨contents, hcontents, rfl, -⟩ := h.of_quote
    obtain ⟨others, hothers, heq, -⟩ := hother.of_quote
    have hquotes : others ++ '"' :: [] = contents ++ '"' :: c :: more :=
      heq.symm.trans (List.append_cons contents '"' (c :: more)).symm
    exact absurd ((List.append_cons_inj_of_notMem hothers List.not_mem_nil).1 hquotes).2.2 nofun
  · refine hother.isBlank_of_mem ?_ c (by simp)
    intro hhead
    exact hquote (Option.some.inj hhead)

/-- Behind a lexeme that a blank or nothing follows no comment begins one character earlier. -/
theorem not_comment (h : Lexeme text kind) (hrest : ∀ c ∈ rest.head?, isBlank c = true) :
    ¬ ['/', '/'] <+: text ++ rest := by
  obtain ⟨d, ds, rfl⟩ := List.exists_cons_of_ne_nil h.ne_nil
  intro hbegins
  obtain ⟨rfl, hnext⟩ := List.cons_prefix_cons.1 hbegins
  obtain ⟨s, hs, -⟩ := h.of_sign (by decide) (by rw [← isDigit_iff]; decide)
    (by rw [← isNameStart_iff]; decide)
  obtain rfl : ds = [] := by
    cases s <;> cases hs
    rfl
  obtain ⟨more, rfl⟩ := hnext
  exact absurd (hrest '/' rfl) (by decide)

/-- A lexeme is cut off whole where a blank or nothing follows it. -/
theorem fits (h : Lexeme text kind) (hrest : ∀ c ∈ rest.head?, isBlank c = true) :
    Fits (.token kind) text rest := by
  refine .token h ?_ (h.not_comment hrest)
  intro other otherKind hother hbegins
  by_contra hlonger
  obtain ⟨more, rfl⟩ := List.prefix_of_prefix_length_le (List.prefix_append text rest) hbegins
    (Nat.le_of_not_le hlonger)
  cases more with
  | nil => exact hlonger (by simp)
  | cons c more =>
    obtain ⟨after, rfl⟩ := (List.prefix_append_right_inj text).1 hbegins
    have hblank := hrest c rfl
    rw [h.not_longer hother] at hblank
    cases hblank

end Lexeme

/-! ### What a text spells -/

/-- A token without its line. -/
def Token.lexeme (t : Token) : Token.Kind × String := (t.kind, t.text)

/-- A text whose segments are blanks, comments and these tokens. -/
inductive Spells : List Char → List (Token.Kind × String) → Prop where
  | nil : Spells [] []
  | silent {kind text rest lexemes} (hkind : kind = .blank ∨ kind = .comment)
      (hfits : Fits kind text rest) (h : Spells rest lexemes) : Spells (text ++ rest) lexemes
  | token {kind text rest lexemes} (hfits : Fits (.token kind) text rest)
      (h : Spells rest lexemes) : Spells (text ++ rest) ((kind, String.ofList text) :: lexemes)

namespace Source

/-- A segment that fits yields its item, then comes the rest. -/
theorem itemsFrom_of_fits {kind : Segment.Kind} {text rest : List Char} (h : Fits kind text rest)
    (line : Nat) : itemsFrom line (text ++ rest) =
      itemsOf ⟨kind, text, rest⟩ (line + newlines text) ++
        itemsFrom (line + newlines text) rest := by
  obtain ⟨c, cs, rfl⟩ := List.exists_cons_of_ne_nil h.text_ne_nil
  obtain ⟨hkind, htext, hrest⟩ := h.unique (first_fits c (cs ++ rest))
    (first_text_append_rest c (cs ++ rest)).symm
  have hcut : first c (cs ++ rest) = ⟨kind, c :: cs, rest⟩ := by
    show Cut.mk (first c (cs ++ rest)).kind (first c (cs ++ rest)).text
      (first c (cs ++ rest)).rest = _
    rw [← hkind, ← htext, ← hrest]
  rw [List.cons_append, itemsFrom_cons, hcut]

/-- The tokens of a text are lexemes. -/
theorem lexeme_of_mem_itemsFrom {line : Nat} {text : List Char} {t : Token}
    (h : .ok t ∈ itemsFrom line text) (hend : t.kind ≠ .endOfSource) :
    Lexeme t.text.toList t.kind := by
  induction text using text_induction generalizing line with
  | nil =>
    rw [itemsFrom_nil] at h
    obtain rfl : t = .atEnd line := by simpa using h
    exact absurd rfl hend
  | cons c cs ih =>
    rw [itemsFrom_cons] at h
    rcases List.mem_append.1 h with h | h
    · obtain ⟨hkind, htoken⟩ := of_mem_itemsOf h
      have hfits := first_fits c cs
      rw [hkind] at hfits
      rw [htoken, String.toList_ofList]
      cases hfits with
      | token hlexeme => exact hlexeme
    · exact ih h

end Source

namespace Spells

variable {text : List Char} {lexemes : List (Token.Kind × String)}

theorem gap {gap : List Char} (hgap : Gap gap) (h : Spells text lexemes) :
    Spells (gap ++ text) lexemes := by
  induction hgap with
  | nil => exact h
  | @blank c rest hc _ ih =>
    have hfits : Fits .blank [c] (rest ++ text) := .blank hc
    have hspells := Spells.silent (.inl rfl) hfits ih
    exact hspells
  | @comment body rest hbody _ ih =>
    have hend : Fits .blank ['\n'] (rest ++ text) := .blank (by simp)
    have hbreak := Spells.silent (.inl rfl) hend ih
    have hfits : Fits .comment ('/' :: '/' :: body) ('\n' :: (rest ++ text)) :=
      .comment hbody (by simp)
    have hcomment := Spells.silent (.inr rfl) hfits hbreak
    simpa using hcomment

/-- Lexemes with separators between them spell themselves. -/
theorem of_spaced (hlexemes : ∀ l ∈ lexemes, Lexeme l.2.toList l.1)
    (h : Spaced (lexemes.map Prod.snd) text) : Spells text lexemes := by
  induction lexemes generalizing text with
  | nil =>
    cases h
    exact .nil
  | cons l rest ih =>
    obtain ⟨kind, lexeme⟩ := l
    obtain ⟨hlexeme, hrest⟩ := List.forall_mem_cons.1 hlexemes
    rw [List.map_cons] at h
    generalize hmap : rest.map Prod.snd = others at h ih
    cases h with
    | last =>
      obtain rfl := List.map_eq_nil_iff.1 hmap
      have hfits : Fits (.token kind) lexeme.toList [] := hlexeme.fits nofun
      have hspells := Spells.token hfits .nil
      rwa [List.append_nil, String.ofList_toList] at hspells
    | @cons _ separator _ text hseparator h =>
      obtain ⟨hc, hgap⟩ := hseparator
      have hspaced := gap (.blank hc hgap) (ih hrest h)
      have hfits := Spells.token (hlexeme.fits (by simpa using isBlank_iff.2 hc)) hspaced
      rwa [← List.append_assoc, String.ofList_toList] at hfits

/-- What a text spells are the tokens that scanning it finds. -/
theorem itemsFrom_eq (h : Spells text lexemes) (line : Nat) :
    ∃ body last, Source.itemsFrom line text = (body ++ [Token.atEnd last]).map .ok ∧
      body.map Token.lexeme = lexemes := by
  induction h generalizing line with
  | nil => exact ⟨[], line, Source.itemsFrom_nil line, rfl⟩
  | @silent kind text rest lexemes hkind hfits _ ih =>
    obtain ⟨body, last, hitems, hbody⟩ := ih (line + Source.newlines text)
    refine ⟨body, last, ?_, hbody⟩
    rw [Source.itemsFrom_of_fits hfits, hitems]
    rcases hkind with rfl | rfl <;> rfl
  | @token kind text rest lexemes hfits _ ih =>
    obtain ⟨body, last, hitems, hbody⟩ := ih (line + Source.newlines text)
    refine ⟨⟨kind, String.ofList text, line + Source.newlines text⟩ :: body, last, ?_, ?_⟩
    · rw [Source.itemsFrom_of_fits hfits, hitems]
      rfl
    · rw [List.map_cons, hbody]
      rfl

theorem scan_eq {source : String} (h : Spells source.toList lexemes) :
    ∃ body last, Scan.ofText source = ⟨body ++ [.atEnd last], []⟩ ∧
      body.map Token.lexeme = lexemes := by
  obtain ⟨body, last, hitems, hbody⟩ := h.itemsFrom_eq 1
  refine ⟨body, last, ?_, hbody⟩
  show Scan.ofItems (Source.itemsFrom 1 source.toList) = _
  rw [hitems, Scan.ofItems_map_ok]

/-- What a text spells is what scanning it finds before its end, and there is no fault. -/
theorem scan_lexemes {source : String} (h : Spells source.toList lexemes) :
    (Scan.ofText source).faults = [] ∧
      (Scan.ofText source).tokens.map Token.lexeme = lexemes ++ [(.endOfSource, "")] := by
  obtain ⟨body, last, hscan, hbody⟩ := h.scan_eq
  rw [hscan, List.map_append, hbody]
  exact ⟨rfl, rfl⟩

end Spells

namespace Scan

/-- Tokens survive being written out again. A text without faults has tokens before its end, and every
text with their lexemes in this order, a separator behind each of them but possibly the last, and any gap
in front, is scanned without a fault as tokens of the same kinds, literals and lexemes, and one end. -/
theorem tokens_survive_spacing {source : String} (h : (ofText source).faults = []) :
    ∃ body last, (ofText source).tokens = body ++ [.atEnd last] ∧
      ∀ lead text, Gap lead → Spaced (body.map Token.text) text → ∃ others end',
        ofText (String.ofList (lead ++ text)) = ⟨others ++ [.atEnd end'], []⟩ ∧
        (∀ t ∈ others, t.kind ≠ .endOfSource) ∧ others.map Token.lexeme = body.map Token.lexeme := by
  obtain ⟨body, last, htokens, hfound⟩ := tokens_eq_append_end source
  refine ⟨body, last, htokens, fun lead text hlead hspaced => ?_⟩
  have hitems : Source.itemsFrom 1 source.toList = (body ++ [Token.atEnd last]).map .ok := by
    rw [← htokens]
    exact eq_map_of_ofItems h
  have hlexemes : ∀ l ∈ body.map Token.lexeme, Lexeme l.2.toList l.1 := by
    intro l hl
    obtain ⟨t, ht, rfl⟩ := List.mem_map.1 hl
    have hmem : .ok t ∈ Source.itemsFrom 1 source.toList := by
      rw [hitems]
      exact List.mem_map_of_mem (List.mem_append_left _ ht)
    exact Source.lexeme_of_mem_itemsFrom hmem (hfound t ht).ne_end
  have htexts : body.map Token.text = (body.map Token.lexeme).map Prod.snd := by
    rw [List.map_map]
    rfl
  rw [htexts] at hspaced
  have hspells := (Spells.of_spaced hlexemes hspaced).gap hlead
  rw [← String.toList_ofList (l := lead ++ text)] at hspells
  obtain ⟨others, end', hscan, hothers⟩ := hspells.scan_eq
  refine ⟨others, end', hscan, fun t ht => ?_, hothers⟩
  have hkind : t.kind ∈ body.map Token.kind := by
    have hkinds := congrArg (List.map Prod.fst) hothers
    rw [List.map_map, List.map_map] at hkinds
    exact hkinds ▸ List.mem_map_of_mem ht
  obtain ⟨u, hu, hsame⟩ := List.mem_map.1 hkind
  exact hsame ▸ (hfound u hu).ne_end

/-- A quotient on one line, written out over several lines with a comment behind the slash. -/
theorem tokens_survive_spacing_quotient :
    (ofText "print 1/2;").faults = [] ∧
    Gap "// a half\n".toList ∧
    Spaced ["print", "1", "/", "2", ";"] "print\n1 / // one\n2\t;\n".toList ∧
    ∃ others last, ofText "// a half\nprint\n1 / // one\n2\t;\n" =
        ⟨others ++ [.atEnd last], []⟩ ∧
      others.map Token.lexeme = (ofText "print 1/2;").tokens.dropLast.map Token.lexeme := by
  have hfaults : (ofText "print 1/2;").faults = [] := by decide +kernel
  have hlead : Gap "// a half\n".toList := by
    have h := @Gap.comment " a half".toList [] (by decide) .nil
    exact h
  have hspaced : Spaced ["print", "1", "/", "2", ";"] "print\n1 / // one\n2\t;\n".toList := by
    have hcomment := @Gap.comment " one".toList [] (by decide) .nil
    have h := Spaced.cons "print" (.intro (c := '\n') (by decide) .nil) <|
      .cons "1" (.intro (c := ' ') (by decide) .nil) <|
      .cons "/" (.intro (c := ' ') (by decide) hcomment) <|
      .cons "2" (.intro (c := '\t') (by decide) .nil) <|
      .cons ";" (.intro (c := '\n') (by decide) .nil) .nil
    exact h
  refine ⟨hfaults, hlead, hspaced, ?_⟩
  obtain ⟨body, last, htokens, hsurvive⟩ := tokens_survive_spacing hfaults
  have htexts : body.map Token.text = ["print", "1", "/", "2", ";"] := by
    have hall : (ofText "print 1/2;").tokens.dropLast.map Token.text =
        ["print", "1", "/", "2", ";"] := by decide +kernel
    rwa [htokens, List.dropLast_concat] at hall
  obtain ⟨others, end', hscan, -, hothers⟩ := hsurvive _ _ hlead (htexts ▸ hspaced)
  refine ⟨others, end', hscan, ?_⟩
  rw [hothers, htokens, List.dropLast_concat]

end Scan

end Lox
