import Mathlib.Data.List.Basic
import Lox.Token.Segment

/-!
# The lexical grammar

The texts that are tokens, and what a text may begin with. Nothing here says how a text is cut up:
`Fits` describes a segment by the grammar, by the longest lexeme, and by what follows it.
-/

namespace Lox

/-! ### Characters -/

def IsDigit (c : Char) : Prop := '0' ≤ c ∧ c ≤ '9'

/-- An ASCII letter or an underscore. -/
def IsLetter (c : Char) : Prop := ('a' ≤ c ∧ c ≤ 'z') ∨ ('A' ≤ c ∧ c ≤ 'Z') ∨ c = '_'

theorem isDigit_iff {c : Char} : c.isDigit = true ↔ IsDigit c := by
  simp only [Char.isDigit, IsDigit, Bool.and_eq_true, decide_eq_true_eq]
  rfl

theorem isNameStart_iff {c : Char} : isNameStart c = true ↔ IsLetter c := by
  have hletter : isNameStart c = ((decide ('A' ≤ c ∧ c ≤ 'Z') ||
      (decide ('a' ≤ c) && decide (c ≤ 'z'))) || decide (c = '_')) := rfl
  simp only [hletter, IsLetter, Bool.or_eq_true, Bool.and_eq_true, decide_eq_true_eq]
  constructor
  · rintro ((h | h) | h)
    · exact .inr (.inl h)
    · exact .inl h
    · exact .inr (.inr h)
  · rintro (h | h | h)
    · exact .inl (.inr h)
    · exact .inl (.inl h)
    · exact .inr h

theorem isNamePart_iff {c : Char} : isNamePart c = true ↔ IsLetter c ∨ IsDigit c := by
  rw [← isNameStart_iff, ← isDigit_iff]
  simp only [isNamePart, isNameStart, Char.isAlphanum, Bool.or_eq_true]
  exact or_right_comm

theorem IsLetter.not_isDigit {c : Char} (h : IsLetter c) : ¬ IsDigit c := by
  rintro ⟨-, hnine⟩
  rcases h with ⟨ha, -⟩ | ⟨ha, -⟩ | rfl
  · exact absurd (Char.le_trans ha hnine) (by decide)
  · exact absurd (Char.le_trans ha hnine) (by decide)
  · exact absurd hnine (by decide)

theorem not_isDigit_point : ¬ IsDigit '.' := by
  rw [← isDigit_iff]
  decide

/-! ### Lexemes -/

/-- The texts that are tokens, with their kinds. A name that is spelled like a keyword is one. -/
inductive Lexeme : List Char → Token.Kind → Prop where
  | symbol (s : Symbol) : Lexeme s.text.toList (.symbol s)
  | whole {digits} (hne : digits ≠ []) (hdigits : ∀ c ∈ digits, IsDigit c) :
      Lexeme digits (.number (numeralValue digits []))
  | fraction {whole fraction} (hwhole : whole ≠ []) (hfraction : fraction ≠ [])
      (hdigits : ∀ c ∈ whole ++ fraction, IsDigit c) :
      Lexeme (whole ++ '.' :: fraction) (.number (numeralValue whole fraction))
  | string {contents} (h : '"' ∉ contents) :
      Lexeme ('"' :: contents ++ ['"']) (.string (String.ofList contents))
  | keyword (k : Keyword) : Lexeme k.text.toList (.keyword k)
  | name {c cs} (hc : IsLetter c) (hcs : ∀ d ∈ cs, IsLetter d ∨ IsDigit d)
      (hk : ∀ k : Keyword, k.text.toList ≠ c :: cs) : Lexeme (c :: cs) .identifier

/-- The letters of a keyword. -/
theorem Keyword.isLetter_of_mem (k : Keyword) : ∀ c ∈ k.text.toList, IsLetter c := by
  have hall : k.text.toList.all isNameStart = true := by cases k <;> decide
  exact fun c hc => isNameStart_iff.1 (List.all_eq_true.1 hall c hc)

theorem Keyword.text_ne_nil (k : Keyword) : k.text.toList ≠ [] := by
  cases k <;> decide

/-- No symbol begins like a token of another kind, or like a blank. -/
theorem Symbol.sign_of_text {s : Symbol} {c : Char} {cs : List Char} (h : s.text.toList = c :: cs) :
    ¬ IsDigit c ∧ ¬ IsLetter c ∧ c ≠ '"' ∧ isBlank c = false := by
  rw [← isDigit_iff, ← isNameStart_iff]
  cases s <;> obtain ⟨rfl, rfl⟩ := List.cons.inj h <;> decide

theorem Symbol.text_injective {s t : Symbol} (h : s.text = t.text) : s = t := by
  cases s <;> cases t <;> first | rfl | exact absurd h (by decide)

namespace Lexeme

variable {text cs : List Char} {c : Char} {kind other : Token.Kind}

theorem ne_nil (h : Lexeme text kind) : text ≠ [] := by
  cases h with
  | symbol s => cases s <;> decide
  | whole hne => exact hne
  | fraction => simp
  | string => simp
  | keyword k => exact k.text_ne_nil
  | name => simp

/-- What begins with a quote is a string. -/
theorem of_quote (h : Lexeme ('"' :: cs) kind) :
    ∃ contents, '"' ∉ contents ∧ cs = contents ++ ['"'] ∧
      kind = .string (String.ofList contents) := by
  generalize htext : '"' :: cs = text at h
  cases h with
  | symbol s => exact absurd rfl (Symbol.sign_of_text htext.symm).2.2.1
  | whole _ hdigits =>
    subst htext
    exact absurd (isDigit_iff.2 (hdigits '"' (by simp))) (by decide)
  | @fraction whole _ hwhole _ hdigits =>
    obtain ⟨d, ds, rfl⟩ := List.exists_cons_of_ne_nil hwhole
    obtain ⟨rfl, -⟩ := List.cons.inj htext
    exact absurd (isDigit_iff.2 (hdigits '"' (by simp))) (by decide)
  | string h =>
    obtain ⟨-, rfl⟩ := List.cons.inj htext
    exact ⟨_, h, rfl, rfl⟩
  | keyword k =>
    have hletter := k.isLetter_of_mem '"' (by rw [← htext]; simp)
    exact absurd (isNameStart_iff.2 hletter) (by decide)
  | name hc =>
    obtain ⟨rfl, -⟩ := List.cons.inj htext
    exact absurd (isNameStart_iff.2 hc) (by decide)

/-- What begins with a digit is a numeral. -/
theorem of_digit (hc : IsDigit c) (h : Lexeme (c :: cs) kind) :
    (∀ d ∈ c :: cs, IsDigit d) ∧ kind = .number (numeralValue (c :: cs) []) ∨
      ∃ whole fraction, c :: cs = whole ++ '.' :: fraction ∧ fraction ≠ [] ∧
        (∀ d ∈ whole ++ fraction, IsDigit d) ∧ kind = .number (numeralValue whole fraction) := by
  generalize htext : c :: cs = text at h
  cases h with
  | symbol s => exact absurd hc (Symbol.sign_of_text htext.symm).1
  | whole _ hdigits => exact .inl ⟨hdigits, rfl⟩
  | fraction _ hfraction hdigits => exact .inr ⟨_, _, rfl, hfraction, hdigits, rfl⟩
  | string =>
    obtain ⟨rfl, -⟩ := List.cons.inj htext
    exact absurd (isDigit_iff.2 hc) (by decide)
  | keyword k =>
    have hletter := k.isLetter_of_mem c (by rw [← htext]; simp)
    exact absurd hc hletter.not_isDigit
  | name hletter =>
    obtain ⟨rfl, -⟩ := List.cons.inj htext
    exact absurd hc hletter.not_isDigit

/-- What begins with a letter is a word: a keyword, or a name if it is none. -/
theorem of_letter (hc : IsLetter c) (h : Lexeme (c :: cs) kind) :
    (∀ d ∈ cs, IsLetter d ∨ IsDigit d) ∧
      ((∃ k : Keyword, k.text.toList = c :: cs ∧ kind = .keyword k) ∨
        (∀ k : Keyword, k.text.toList ≠ c :: cs) ∧ kind = .identifier) := by
  generalize htext : c :: cs = text at h
  cases h with
  | symbol s => exact absurd hc (Symbol.sign_of_text htext.symm).2.1
  | whole _ hdigits =>
    subst htext
    exact absurd (hdigits c (by simp)) hc.not_isDigit
  | @fraction whole _ hwhole _ hdigits =>
    obtain ⟨d, ds, rfl⟩ := List.exists_cons_of_ne_nil hwhole
    obtain ⟨rfl, -⟩ := List.cons.inj htext
    exact absurd (hdigits c (by simp)) hc.not_isDigit
  | string =>
    obtain ⟨rfl, -⟩ := List.cons.inj htext
    exact absurd (isNameStart_iff.2 hc) (by decide)
  | keyword k =>
    refine ⟨fun d hd => .inl (k.isLetter_of_mem d ?_), .inl ⟨k, rfl, rfl⟩⟩
    rw [← htext]
    exact .tail c hd
  | name _ hcs hk =>
    obtain ⟨rfl, rfl⟩ := List.cons.inj htext
    exact ⟨hcs, .inr ⟨hk, rfl⟩⟩

/-- What begins otherwise is a symbol. -/
theorem of_sign (hquote : c ≠ '"') (hdigit : ¬ IsDigit c) (hletter : ¬ IsLetter c)
    (h : Lexeme (c :: cs) kind) : ∃ s : Symbol, s.text.toList = c :: cs ∧ kind = .symbol s := by
  generalize htext : c :: cs = text at h
  cases h with
  | symbol s => exact ⟨s, rfl, rfl⟩
  | whole _ hdigits =>
    subst htext
    exact absurd (hdigits c (by simp)) hdigit
  | @fraction whole _ hwhole _ hdigits =>
    obtain ⟨d, ds, rfl⟩ := List.exists_cons_of_ne_nil hwhole
    obtain ⟨rfl, -⟩ := List.cons.inj htext
    exact absurd (hdigits c (by simp)) hdigit
  | string => exact absurd (List.cons.inj htext).1 hquote
  | keyword k => exact absurd (k.isLetter_of_mem c (by rw [← htext]; simp)) hletter
  | name hc =>
    obtain ⟨rfl, -⟩ := List.cons.inj htext
    exact absurd hc hletter

/-- No token begins with a blank. -/
theorem isBlank_eq_false (h : Lexeme (c :: cs) kind) : isBlank c = false := by
  have hchar : ∀ d ∈ [' ', '\t', '\r', '\n'], d ≠ '"' ∧ ¬ IsDigit d ∧ ¬ IsLetter d := by
    intro d hd
    rw [← isDigit_iff, ← isNameStart_iff]
    simp only [List.mem_cons, List.not_mem_nil, or_false] at hd
    rcases hd with rfl | rfl | rfl | rfl <;> decide
  cases hblank : isBlank c with
  | false => rfl
  | true =>
    have hmem : c ∈ [' ', '\t', '\r', '\n'] := by simpa [isBlank, or_assoc] using hblank
    obtain ⟨hquote, hdigit, hletter⟩ := hchar c hmem
    obtain ⟨s, hs, -⟩ := of_sign hquote hdigit hletter h
    exact hblank.symm.trans (Symbol.sign_of_text hs).2.2.2

/-- Where the point stands in a numeral. -/
theorem point_unique {whole fraction others more : List Char}
    (h : ∀ c ∈ whole ++ fraction, IsDigit c)
    (heq : whole ++ '.' :: fraction = others ++ '.' :: more) :
    whole = others ∧ fraction = more := by
  rw [List.forall_mem_append] at h
  have hwhole : '.' ∉ whole := fun hmem => not_isDigit_point (h.1 '.' hmem)
  have hfraction : '.' ∉ fraction := fun hmem => not_isDigit_point (h.2 '.' hmem)
  obtain ⟨rfl, -, rfl⟩ := (List.append_cons_inj_of_notMem hwhole hfraction).1 heq
  exact ⟨rfl, rfl⟩

/-- A text is a token of one kind only. -/
theorem kind_unique (h : Lexeme text kind) (k : Lexeme text other) : kind = other := by
  obtain ⟨c, cs, rfl⟩ := List.exists_cons_of_ne_nil h.ne_nil
  by_cases hquote : c = '"'
  · subst hquote
    obtain ⟨contents, -, hcs, rfl⟩ := of_quote h
    obtain ⟨contents', -, hcs', rfl⟩ := of_quote k
    rw [List.append_cancel_right (hcs.symm.trans hcs')]
  by_cases hdigit : IsDigit c
  · rcases of_digit hdigit h with ⟨hall, rfl⟩ | ⟨whole, fraction, htext, -, hdigits, rfl⟩
    · rcases of_digit hdigit k with ⟨-, rfl⟩ | ⟨_, _, htext, -, -, -⟩
      · rfl
      · exact absurd (hall '.' (by rw [htext]; simp)) not_isDigit_point
    · rcases of_digit hdigit k with ⟨hall, -⟩ | ⟨_, _, htext', -, -, rfl⟩
      · exact absurd (hall '.' (by rw [htext]; simp)) not_isDigit_point
      · obtain ⟨rfl, rfl⟩ := point_unique hdigits (htext.symm.trans htext')
        rfl
  by_cases hletter : IsLetter c
  · rcases (of_letter hletter h).2 with ⟨first, hfirst, rfl⟩ | ⟨hnone, rfl⟩
    · rcases (of_letter hletter k).2 with ⟨second, hsecond, rfl⟩ | ⟨hnone, -⟩
      · rw [Keyword.text_injective (String.toList_inj.1 (hfirst.trans hsecond.symm))]
      · exact absurd hfirst (hnone first)
    · rcases (of_letter hletter k).2 with ⟨second, hsecond, -⟩ | ⟨-, rfl⟩
      · exact absurd hsecond (hnone second)
      · rfl
  · obtain ⟨s, hs, rfl⟩ := of_sign hquote hdigit hletter h
    obtain ⟨t, ht, rfl⟩ := of_sign hquote hdigit hletter k
    rw [Symbol.text_injective (String.toList_inj.1 (hs.trans ht.symm))]

end Lexeme

end Lox
