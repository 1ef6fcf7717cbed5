import Mathlib.Data.List.TakeWhile
import Lox.Proofs.Token.Lexeme

/-!
# What a source begins with

Whatever is left of a source begins with exactly one segment that fits the lexical grammar and what
follows it, and that segment is the one that scanning cuts off: `Segment.first_fits`,
`Segment.Fits.unique`.
-/

namespace Lox

namespace Segment

/-! ### Segments by the grammar -/

/-- A segment of this kind is `text` when `rest` follows it. A token is the longest lexeme there,
and two slashes never begin one. A character is unexpected if it is no blank and begins no lexeme
and no string. -/
inductive Fits : Kind → List Char → List Char → Prop where
  | blank {c rest} (h : c ∈ [' ', '\t', '\r', '\n']) : Fits .blank [c] rest
  | comment {body rest} (hbody : '\n' ∉ body) (hrest : ∀ c ∈ rest.head?, c = '\n') :
      Fits .comment ('/' :: '/' :: body) rest
  | token {text rest kind} (h : Lexeme text kind)
      (hlongest : ∀ other otherKind, Lexeme other otherKind → other <+: text ++ rest →
        other.length ≤ text.length)
      (hcomment : ¬ ['/', '/'] <+: text ++ rest) : Fits (.token kind) text rest
  | unexpected {c rest} (hblank : c ∉ [' ', '\t', '\r', '\n']) (hquote : c ≠ '"')
      (h : ∀ text kind, Lexeme text kind → ¬ text <+: c :: rest) :
      Fits (.fault (.unexpectedCharacter c)) [c] rest
  | unterminated {body} (h : '"' ∉ body) : Fits (.fault .unterminatedString) ('"' :: body) []

theorem isBlank_iff {c : Char} : isBlank c = true ↔ c ∈ [' ', '\t', '\r', '\n'] := by
  simp [isBlank, or_assoc]

/-- A prefix made of such characters is no longer than the longest one. -/
theorem length_le_takeWhile {p : Char → Bool} {text cs : List Char} (htext : text <+: cs)
    (hp : ∀ c ∈ text, p c = true) : text.length ≤ (cs.takeWhile p).length := by
  obtain ⟨rest, rfl⟩ := htext
  rw [List.takeWhile_append_of_pos hp, List.length_append]
  exact Nat.le_add_right _ _

/-- Before a character that is not of them, the longest prefix of such characters ends. -/
theorem takeWhile_append_stop {p : Char → Bool} {text : List Char} {c : Char} (rest : List Char)
    (hp : ∀ d ∈ text, p d = true) (hc : p c = false) :
    (text ++ c :: rest).takeWhile p = text ∧ (text ++ c :: rest).dropWhile p = c :: rest := by
  rw [List.takeWhile_append_of_pos hp, List.dropWhile_append_of_pos hp]
  simp [hc]

/-! ### The first segment fits -/

variable {c : Char} {cs : List Char}

theorem quoted_fits (cs : List Char) : Fits (quoted cs).kind (quoted cs).text (quoted cs).rest := by
  have hcs := List.takeWhile_append_dropWhile (p := (· ≠ '"')) (l := cs)
  have hcontents : '"' ∉ cs.takeWhile (· ≠ '"') := by
    intro hmem
    simpa using List.mem_takeWhile_imp hmem
  have hhead := List.head?_dropWhile_not (· ≠ '"') cs
  unfold quoted
  split
  · next q rest hdrop =>
    rw [hdrop] at hcs hhead
    obtain rfl : q = '"' := by simpa using hhead
    refine .token (.string hcontents) ?_ ?_
    · intro other kind hother hbegins
      obtain ⟨d, ds, rfl⟩ := List.exists_cons_of_ne_nil hother.ne_nil
      obtain ⟨rfl, htail⟩ := List.cons_prefix_cons.1 hbegins
      obtain ⟨contents, hnone, rfl, -⟩ := hother.of_quote
      obtain ⟨more, hmore⟩ := htail
      have hall : ∀ d ∈ contents, (d ≠ '"' : Bool) = true := fun d hd => by
        simpa using ne_of_mem_of_not_mem hd hnone
      have hstop := takeWhile_append_stop (p := (· ≠ '"')) (c := '"') more hall (by simp)
      have heq : contents ++ '"' :: more = cs.takeWhile (· ≠ '"') ++ '"' :: rest := by
        simpa using hmore
      rw [hcs] at heq
      rw [heq] at hstop
      rw [hstop.1]
      simp
    · intro hbegins
      exact absurd (List.cons_prefix_cons.1 hbegins).1 (by decide)
  · next hdrop => exact .unterminated hcontents

/-- The numerals at the beginning of a text are no longer than the one that is cut off. -/
theorem length_le_numeral {kind : Token.Kind} (hc : IsDigit c) {other : List Char}
    (hother : Lexeme other kind) (hbegins : other <+: c :: cs) :
    other.length ≤ (numeral (c :: cs)).text.length := by
  have hwhole : ((c :: cs).takeWhile Char.isDigit).length ≤ (numeral (c :: cs)).text.length := by
    unfold numeral
    split
    · split <;> simp
    · simp
  obtain ⟨d, ds, rfl⟩ := List.exists_cons_of_ne_nil hother.ne_nil
  obtain ⟨rfl, -⟩ := List.cons_prefix_cons.1 hbegins
  rcases hother.of_digit hc with ⟨hdigits, -⟩ | ⟨whole, fraction, htext, hne, hdigits, -⟩
  · calc
      (d :: ds).length ≤ ((d :: cs).takeWhile Char.isDigit).length :=
        length_le_takeWhile hbegins fun e he => isDigit_iff.2 (hdigits e he)
      _ ≤ (numeral (d :: cs)).text.length := hwhole
  · rw [List.forall_mem_append] at hdigits
    obtain ⟨e, es, rfl⟩ := List.exists_cons_of_ne_nil hne
    obtain ⟨more, hmore⟩ := hbegins
    have hsplit : d :: cs = whole ++ '.' :: (e :: es ++ more) := by
      rw [← hmore, htext, List.append_assoc, List.cons_append]
    have he : e.isDigit = true := isDigit_iff.2 (hdigits.2 e (by simp))
    have hes : ∀ a ∈ es, a.isDigit = true := fun a ha => isDigit_iff.2 (hdigits.2 a (by simp [ha]))
    obtain ⟨htake, hdrop⟩ := takeWhile_append_stop (e :: es ++ more)
      (fun a ha => isDigit_iff.2 (hdigits.1 a ha)) (show Char.isDigit '.' = false by decide)
    rw [← hsplit] at htake hdrop
    rw [htext]
    unfold numeral
    rw [htake, hdrop, List.cons_append]
    simp only [he, if_true, List.takeWhile_append_of_pos hes, List.length_append, List.length_cons]
    omega

theorem numeral_lexeme (hc : IsDigit c) (cs : List Char) :
    ∃ kind, (numeral (c :: cs)).kind = .token kind ∧ Lexeme (numeral (c :: cs)).text kind := by
  have hwhole : ∀ d ∈ (c :: cs).takeWhile Char.isDigit, IsDigit d :=
    fun d hd => isDigit_iff.1 (List.mem_takeWhile_imp hd)
  have hne : (c :: cs).takeWhile Char.isDigit ≠ [] := by simp [isDigit_iff.2 hc]
  unfold numeral
  split
  · next d rest hdrop =>
    split
    · next hd =>
      refine ⟨_, rfl, .fraction hne (by simp) ?_⟩
      intro e he
      rcases List.mem_append.1 he with he | he
      · exact hwhole e he
      · rcases List.mem_cons.1 he with rfl | he
        · exact isDigit_iff.1 hd
        · exact isDigit_iff.1 (List.mem_takeWhile_imp he)
    · exact ⟨_, rfl, .whole hne hwhole⟩
  · exact ⟨_, rfl, .whole hne hwhole⟩

/-- What begins with a digit begins no comment. -/
theorem not_comment_of_ne (h : c ≠ '/') : ¬ ['/', '/'] <+: c :: cs := by
  intro hbegins
  exact h (List.cons_prefix_cons.1 hbegins).1.symm

theorem numeral_fits (hc : IsDigit c) (cs : List Char) :
    Fits (numeral (c :: cs)).kind (numeral (c :: cs)).text (numeral (c :: cs)).rest := by
  obtain ⟨kind, hkind, hlexeme⟩ := numeral_lexeme hc cs
  rw [hkind]
  refine .token hlexeme ?_ ?_ <;> rw [numeral_text_append_rest]
  · intro other otherKind hother hbegins
    exact length_le_numeral hc hother hbegins
  · apply not_comment_of_ne
    rintro rfl
    exact absurd (isDigit_iff.2 hc) (by decide)

theorem word_lexeme (hc : IsLetter c) (cs : List Char) :
    ∃ kind, (word (c :: cs)).kind = .token kind ∧ Lexeme (word (c :: cs)).text kind := by
  have hpart : isNamePart c = true := isNamePart_iff.2 (.inl hc)
  have htext : (word (c :: cs)).text = c :: cs.takeWhile isNamePart := by simp [word, hpart]
  rw [htext]
  unfold word
  simp only [List.takeWhile_cons, hpart, if_true]
  cases hk : Keyword.ofText? (String.ofList (c :: cs.takeWhile isNamePart)) with
  | some k =>
    refine ⟨_, rfl, ?_⟩
    have hkeyword := Keyword.ofText?_eq_some_iff.1 hk
    rw [show c :: cs.takeWhile isNamePart = k.text.toList by rw [hkeyword, String.toList_ofList]]
    exact .keyword k
  | none =>
    refine ⟨_, rfl, .name hc ?_ ?_⟩
    · intro d hd
      exact isNamePart_iff.1 (List.mem_takeWhile_imp hd)
    · intro k hkeyword
      have hsome := Keyword.ofText?_text k
      rw [← String.ofList_toList (s := k.text), hkeyword] at hsome
      rw [hk] at hsome
      cases hsome

theorem word_fits (hc : IsLetter c) (cs : List Char) :
    Fits (word (c :: cs)).kind (word (c :: cs)).text (word (c :: cs)).rest := by
  obtain ⟨kind, hkind, hlexeme⟩ := word_lexeme hc cs
  rw [hkind]
  refine .token hlexeme ?_ ?_ <;> rw [word_text_append_rest]
  · intro other otherKind hother hbegins
    obtain ⟨d, ds, rfl⟩ := List.exists_cons_of_ne_nil hother.ne_nil
    obtain ⟨rfl, -⟩ := List.cons_prefix_cons.1 hbegins
    refine length_le_takeWhile hbegins ?_
    intro e he
    rw [isNamePart_iff]
    rcases List.mem_cons.1 he with rfl | he
    · exact .inl hc
    · exact (hother.of_letter hc).1 e he
  · apply not_comment_of_ne
    rintro rfl
    exact absurd (isNameStart_iff.2 hc) (by decide)

/-- The texts of the symbols that begin with a sign. -/
theorem ofChar?_of_text {s : Symbol} (h : s.text.toList = c :: cs) :
    ∃ first, Symbol.ofChar? c = some first ∧
      (cs = [] ∧ s = first ∨ cs = ['='] ∧ first.withEqual? = some s) := by
  cases s <;> obtain ⟨rfl, rfl⟩ := List.cons.inj h <;> exact ⟨_, rfl, by decide⟩

theorem text_of_ofChar? {s : Symbol} (h : Symbol.ofChar? c = some s) : s.text.toList = [c] := by
  unfold Symbol.ofChar? at h
  split at h <;> cases h <;> rfl

theorem text_of_withEqual? {s t : Symbol} (h : s.withEqual? = some t) :
    t.text.toList = s.text.toList ++ ['='] := by
  cases s <;> cases h <;> rfl

theorem symbol_fits {s : Symbol} (hs : Symbol.ofChar? c = some s)
    (hcomment : ¬ ['/', '/'] <+: c :: cs) :
    Fits (symbol s c cs).kind (symbol s c cs).text (symbol s c cs).rest := by
  have hchar := text_of_ofChar? hs
  obtain ⟨hdigit, hletter, hquote, -⟩ := Symbol.sign_of_text hchar
  -- Whatever begins like the symbol is the symbol itself, or makes one with an equals sign.
  have hsigns : ∀ other kind, Lexeme other kind → other <+: c :: cs →
      other = [c] ∨ other = [c, '='] ∧ s.withEqual? ≠ none ∧ cs.head? = some '=' := by
    intro other kind hother hbegins
    obtain ⟨d, ds, rfl⟩ := List.exists_cons_of_ne_nil hother.ne_nil
    obtain ⟨rfl, htail⟩ := List.cons_prefix_cons.1 hbegins
    obtain ⟨t, ht, -⟩ := hother.of_sign hquote hdigit hletter
    obtain ⟨first, hfirst, hrest⟩ := ofChar?_of_text ht
    obtain rfl : first = s := Option.some.inj (hfirst.symm.trans hs)
    rcases hrest with ⟨rfl, -⟩ | ⟨rfl, hequal⟩
    · exact .inl rfl
    · obtain ⟨more, rfl⟩ := htail
      exact .inr ⟨rfl, by simp [hequal], rfl⟩
  unfold symbol
  split
  · next rest t hequal =>
    have hlexeme := Lexeme.symbol t
    rw [text_of_withEqual? hequal, hchar] at hlexeme
    refine .token hlexeme ?_ hcomment
    intro other kind hother hbegins
    rcases hsigns other kind hother hbegins with rfl | ⟨rfl, -⟩ <;> simp
  · next hnone =>
    have hlexeme := Lexeme.symbol s
    rw [hchar] at hlexeme
    refine .token hlexeme ?_ hcomment
    intro other kind hother hbegins
    rcases hsigns other kind hother hbegins with rfl | ⟨-, hequal, hhead⟩
    · exact Nat.le_refl _
    · obtain ⟨t, ht⟩ := Option.ne_none_iff_exists'.1 hequal
      obtain ⟨rest, rfl⟩ := List.head?_eq_some_iff.1 hhead
      exact absurd ht (hnone rest t rfl)

theorem comment_fits {rest : List Char} :
    Fits (comment ('/' :: '/' :: rest)).kind (comment ('/' :: '/' :: rest)).text
      (comment ('/' :: '/' :: rest)).rest := by
  have hhead := List.head?_dropWhile_not (· ≠ '\n') rest
  have htext : (comment ('/' :: '/' :: rest)).text = '/' :: '/' :: rest.takeWhile (· ≠ '\n') := by
    simp [comment]
  have hrest : (comment ('/' :: '/' :: rest)).rest = rest.dropWhile (· ≠ '\n') := by
    simp [comment]
  rw [htext, hrest]
  apply Fits.comment
  · intro hmem
    simpa using List.mem_takeWhile_imp hmem
  · intro c hc
    rw [Option.mem_def.1 hc] at hhead
    simpa using hhead

/-- What is cut off first fits. -/
theorem first_fits (c : Char) (cs : List Char) :
    Fits (first c cs).kind (first c cs).text (first c cs).rest := by
  unfold first
  by_cases hblank : isBlank c = true
  · rw [if_pos hblank]
    exact .blank (isBlank_iff.1 hblank)
  rw [if_neg hblank]
  by_cases hquote : c = '"'
  · rw [if_pos hquote]
    exact quoted_fits cs
  rw [if_neg hquote]
  by_cases hdigit : c.isDigit = true
  · rw [if_pos hdigit]
    exact numeral_fits (isDigit_iff.1 hdigit) cs
  rw [if_neg hdigit]
  by_cases hletter : isNameStart c = true
  · rw [if_pos hletter]
    exact word_fits (isNameStart_iff.1 hletter) cs
  rw [if_neg hletter]
  by_cases hcomment : c = '/' ∧ cs.head? = some '/'
  · rw [if_pos hcomment]
    obtain ⟨rfl, hhead⟩ := hcomment
    obtain ⟨rest, rfl⟩ := List.head?_eq_some_iff.1 hhead
    exact comment_fits
  rw [if_neg hcomment]
  cases hsymbol : Symbol.ofChar? c with
  | some s =>
    apply symbol_fits hsymbol
    intro hbegins
    obtain ⟨rfl, rest, rfl⟩ := List.cons_prefix_cons.1 hbegins
    exact hcomment ⟨rfl, rfl⟩
  | none =>
    apply Fits.unexpected (fun hmem => hblank (isBlank_iff.2 hmem)) hquote
    intro text kind htext hbegins
    obtain ⟨d, ds, rfl⟩ := List.exists_cons_of_ne_nil htext.ne_nil
    obtain ⟨rfl, -⟩ := List.cons_prefix_cons.1 hbegins
    rw [isDigit_iff] at hdigit
    rw [isNameStart_iff] at hletter
    obtain ⟨s, hs, -⟩ := htext.of_sign hquote hdigit hletter
    obtain ⟨first, hfirst, -⟩ := ofChar?_of_text hs
    rw [hsymbol] at hfirst
    cases hfirst

/-! ### Nothing else fits -/

variable {text rest text' rest' body : List Char} {kind kind' : Kind}

theorem Fits.text_ne_nil (h : Fits kind text rest) : text ≠ [] := by
  cases h with
  | token h => exact h.ne_nil
  | blank | comment | unexpected | unterminated => simp

theorem Fits.of_blank (h : Fits kind text rest) (heq : c :: cs = text ++ rest)
    (hc : c ∈ [' ', '\t', '\r', '\n']) : kind = .blank ∧ text = [c] := by
  cases h with
  | blank =>
    obtain ⟨rfl, -⟩ := List.cons.inj heq
    exact ⟨rfl, rfl⟩
  | comment =>
    obtain ⟨rfl, -⟩ := List.cons.inj heq
    exact absurd hc (by decide)
  | token h =>
    obtain ⟨d, ds, rfl⟩ := List.exists_cons_of_ne_nil h.ne_nil
    obtain ⟨rfl, -⟩ := List.cons.inj heq
    have hblank := isBlank_iff.2 hc
    rw [h.isBlank_eq_false] at hblank
    cases hblank
  | unexpected hblank =>
    obtain ⟨rfl, -⟩ := List.cons.inj heq
    exact absurd hc hblank
  | unterminated =>
    obtain ⟨rfl, -⟩ := List.cons.inj heq
    exact absurd hc (by decide)

/-- A comment goes on until a line break comes. -/
theorem comment_unique {more : List Char} (heq : body ++ rest = text ++ more)
    (hbody : '\n' ∉ body) (hrest : ∀ c ∈ rest.head?, c = '\n')
    (htext : '\n' ∉ text) (hmore : ∀ c ∈ more.head?, c = '\n') : body = text := by
  rcases List.append_eq_append_iff.1 heq with ⟨tail, rfl, rfl⟩ | ⟨tail, rfl, rfl⟩
  · cases tail with
    | nil => exact (List.append_nil _).symm
    | cons d ds => exact absurd (by simp [hrest d rfl]) htext
  · cases tail with
    | nil => exact List.append_nil _
    | cons d ds => exact absurd (by simp [hmore d rfl]) hbody

theorem Fits.of_slashes (h : Fits kind text rest) (heq : '/' :: '/' :: cs = text ++ rest) :
    kind = .comment ∧ ∃ body, text = '/' :: '/' :: body ∧ '\n' ∉ body ∧
      ∀ c ∈ rest.head?, c = '\n' := by
  cases h with
  | blank hc =>
    obtain ⟨rfl, -⟩ := List.cons.inj heq
    exact absurd hc (by decide)
  | comment hbody hrest => exact ⟨rfl, _, rfl, hbody, hrest⟩
  | token _ _ hcomment => exact absurd ⟨cs, heq⟩ hcomment
  | unexpected _ _ h =>
    obtain ⟨rfl, -⟩ := List.cons.inj heq
    exact absurd (List.prefix_append ['/'] rest) (h _ _ (.symbol .slash))
  | unterminated =>
    exact absurd (List.cons.inj heq).1 (by decide)

theorem Fits.of_lexeme (h : Fits kind text rest) {other : List Char} {otherKind : Token.Kind}
    (hother : Lexeme other otherKind) (hbegins : other <+: text ++ rest)
    (hcomment : ¬ ['/', '/'] <+: text ++ rest) :
    other.length ≤ text.length ∧ ∃ own, kind = .token own ∧ Lexeme text own := by
  obtain ⟨d, ds, rfl⟩ := List.exists_cons_of_ne_nil hother.ne_nil
  cases h with
  | blank hc =>
    obtain ⟨rfl, -⟩ := List.cons_prefix_cons.1 hbegins
    have hblank := isBlank_iff.2 hc
    rw [hother.isBlank_eq_false] at hblank
    cases hblank
  | comment => exact absurd (by simp) hcomment
  | token h hlongest => exact ⟨hlongest _ _ hother hbegins, _, rfl, h⟩
  | unexpected _ _ h => exact absurd hbegins (h _ _ hother)
  | unterminated hbody =>
    rw [List.append_nil] at hbegins
    obtain ⟨rfl, htail⟩ := List.cons_prefix_cons.1 hbegins
    obtain ⟨contents, -, rfl, -⟩ := hother.of_quote
    exact absurd (htail.subset (by simp)) hbody

theorem Fits.of_unterminated (h : Fits kind text rest) (heq : '"' :: body = text ++ rest)
    (hbody : '"' ∉ body) : kind = .fault .unterminatedString ∧ text = '"' :: body := by
  cases h with
  | blank hc =>
    obtain ⟨rfl, -⟩ := List.cons.inj heq
    exact absurd hc (by decide)
  | comment => exact absurd (List.cons.inj heq).1 (by decide)
  | token h =>
    obtain ⟨d, ds, rfl⟩ := List.exists_cons_of_ne_nil h.ne_nil
    obtain ⟨rfl, rfl⟩ := List.cons.inj heq
    obtain ⟨contents, -, rfl, -⟩ := h.of_quote
    exact absurd (by simp) hbody
  | unexpected _ hquote =>
    obtain ⟨rfl, -⟩ := List.cons.inj heq
    exact absurd rfl hquote
  | unterminated => exact ⟨rfl, by rw [heq, List.append_nil]⟩

/-- What is left of a source begins with one segment only. -/
theorem Fits.unique (h : Fits kind text rest) (h' : Fits kind' text' rest')
    (heq : text ++ rest = text' ++ rest') : kind = kind' ∧ text = text' ∧ rest = rest' := by
  suffices hsame : kind = kind' ∧ text = text' by
    obtain ⟨rfl, rfl⟩ := hsame
    exact ⟨rfl, rfl, List.append_cancel_left heq⟩
  cases h with
  | blank hc =>
    obtain ⟨rfl, rfl⟩ := h'.of_blank heq hc
    exact ⟨rfl, rfl⟩
  | comment hbody hrest =>
    obtain ⟨rfl, more, rfl, hmore, hrest'⟩ := h'.of_slashes heq
    simp only [List.cons_append, List.cons.injEq, true_and] at heq
    rw [comment_unique heq hbody hrest hmore hrest']
    exact ⟨rfl, rfl⟩
  | token h hlongest hcomment =>
    have hbegins : text <+: text' ++ rest' := ⟨rest, heq⟩
    rw [heq] at hcomment
    obtain ⟨hle, own, rfl, hown⟩ := h'.of_lexeme h hbegins hcomment
    have hge := hlongest _ _ hown ⟨rest', heq.symm⟩
    obtain ⟨rfl, -⟩ := List.append_inj heq (Nat.le_antisymm hle hge)
    rw [h.kind_unique hown]
    exact ⟨rfl, rfl⟩
  | unexpected hblank hquote hnone =>
    rw [List.singleton_append] at heq
    cases h' with
    | blank hc =>
      obtain ⟨rfl, -⟩ := List.cons.inj heq
      exact absurd hc hblank
    | comment =>
      obtain ⟨rfl, -⟩ := List.cons.inj heq
      exact absurd (List.prefix_append ['/'] rest) (hnone _ _ (.symbol .slash))
    | token h => exact absurd ⟨rest', heq.symm⟩ (hnone _ _ h)
    | unexpected =>
      obtain ⟨rfl, -⟩ := List.cons.inj heq
      exact ⟨rfl, rfl⟩
    | unterminated => exact absurd (List.cons.inj heq).1 hquote
  | unterminated hbody =>
    rw [List.append_nil] at heq
    obtain ⟨rfl, rfl⟩ := h'.of_unterminated heq hbody
    exact ⟨rfl, rfl⟩

end Segment

end Lox
