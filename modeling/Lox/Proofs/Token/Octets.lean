import Mathlib.Data.List.TakeWhile
import Lox.Proofs.Token.Lexeme

/-!
# The bytes of a source

A source can be cut up byte by byte as well: every character that scanning looks for is one byte, no
byte of a longer character is mistaken for it, and a character that begins nothing is as long as its
first byte says. The cuts are the same: `Octets.first_octets`.
-/

namespace Lox

/-- A text in UTF-8. -/
def octets (text : List Char) : List UInt8 := text.flatMap String.utf8EncodeChar

theorem octets_nil : octets [] = [] := rfl

theorem octets_append (text more : List Char) :
    octets (text ++ more) = octets text ++ octets more := List.flatMap_append

theorem octets_cons (c : Char) (cs : List Char) :
    octets (c :: cs) = String.utf8EncodeChar c ++ octets cs := List.flatMap_cons

/-- The bytes that a string is stored as. -/
theorem toUTF8_toList (source : String) : source.toUTF8.data.toList = octets source.toList := by
  have h := String.toByteArray_ofList (l := source.toList)
  rw [String.ofList_toList] at h
  rw [String.toUTF8, h, List.utf8Encode, octets, List.toList_data_toByteArray]

namespace Octets

/-- The character that a byte is by itself. -/
def asChar (b : UInt8) : Char := Char.ofNat b.toNat

/-- How many bytes the character that begins with this byte has. -/
def width (b : UInt8) : Nat :=
  if b < 128 then 1 else if b < 224 then 2 else if b < 240 then 3 else 4

theorem asChar_toNat (b : UInt8) : (asChar b).toNat = b.toNat := by
  have hlt := b.toNat_lt
  rw [asChar, Char.ofNat, dif_pos (by simp [Nat.isValidChar]; omega)]
  rfl

theorem width_eq (b : UInt8) : width b =
    if b.toNat < 128 then 1 else if b.toNat < 224 then 2 else if b.toNat < 240 then 3 else 4 := by
  simp only [width, UInt8.lt_iff_toNat_lt]
  rfl

/-- An ASCII character is one byte. -/
theorem utf8EncodeChar_ascii {c : Char} (h : c.toNat < 128) :
    ∃ b, String.utf8EncodeChar c = [b] ∧ asChar b = c ∧ width b = 1 := by
  have hle : c.val.toNat ≤ 127 := Nat.le_of_lt_succ h
  have hnat : (UInt8.ofNat c.toNat).toNat = c.toNat := by
    rw [UInt8.toNat_ofNat', Nat.mod_eq_of_lt (by omega)]
  refine ⟨UInt8.ofNat c.toNat, ?_, ?_, ?_⟩
  · rw [String.utf8EncodeChar]
    exact if_pos hle
  · rw [asChar, hnat, Char.ofNat_toNat]
  · rw [width_eq, hnat, if_pos h]

/-- No byte of another character is an ASCII character. -/
theorem utf8EncodeChar_other {c : Char} (h : 128 ≤ c.toNat) :
    ∃ b bs, String.utf8EncodeChar c = b :: bs ∧ width b = bs.length + 1 ∧
      ∀ d ∈ b :: bs, 128 ≤ (asChar d).toNat := by
  have hval : c.val.toNat = c.toNat := rfl
  have hmax : c.toNat < 1114112 := by
    have := c.valid
    simp only [UInt32.isValidChar, Nat.isValidChar] at this
    omega
  simp only [String.utf8EncodeChar, hval, asChar_toNat, width_eq]
  rw [if_neg (by omega)]
  split
  · refine ⟨_, _, rfl, ?_, ?_⟩
    · rw [UInt8.toNat_ofNat', if_neg (by omega), if_pos (by omega)]
      rfl
    · simp only [List.forall_mem_cons, UInt8.toNat_ofNat', List.not_mem_nil, false_implies,
        implies_true, and_true]
      omega
  split
  · refine ⟨_, _, rfl, ?_, ?_⟩
    · rw [UInt8.toNat_ofNat', if_neg (by omega), if_neg (by omega), if_pos (by omega)]
      rfl
    · simp only [List.forall_mem_cons, UInt8.toNat_ofNat', List.not_mem_nil, false_implies,
        implies_true, and_true]
      omega
  · refine ⟨_, _, rfl, ?_, ?_⟩
    · rw [UInt8.toNat_ofNat', if_neg (by omega), if_neg (by omega), if_neg (by omega)]
      rfl
    · simp only [List.forall_mem_cons, UInt8.toNat_ofNat', List.not_mem_nil, false_implies,
        implies_true, and_true]
      omega

/-! ### Runs of characters -/

/-- A test that does not tell the characters beyond ASCII from each other. -/
def Uniform (p : Char → Bool) : Prop :=
  ∀ c d : Char, 128 ≤ c.toNat → 128 ≤ d.toNat → p c = p d

/-- A test that only ASCII characters pass. -/
theorem uniform_of_ascii {p : Char → Bool} (h : ∀ c, p c = true → c.toNat < 128) : Uniform p := by
  intro c d hc hd
  have hfalse : ∀ e : Char, 128 ≤ e.toNat → p e = false := by
    intro e he
    rw [Bool.eq_false_iff]
    intro hpass
    exact absurd (h e hpass) (by omega)
  rw [hfalse c hc, hfalse d hd]

theorem uniform_ne {e : Char} (he : e.toNat < 128) : Uniform (· ≠ e) := by
  have hpass : ∀ c : Char, 128 ≤ c.toNat → decide (c ≠ e) = true := by
    intro c hc
    rw [decide_eq_true_eq]
    rintro rfl
    omega
  intro c d hc hd
  exact (hpass c hc).trans (hpass d hd).symm

/-- The bytes that pass a test one by one are those of the characters that pass it. -/
theorem takeWhile_octets {p : Char → Bool} (h : Uniform p) (text : List Char) :
    (octets text).takeWhile (fun b => p (asChar b)) = octets (text.takeWhile p) ∧
      (octets text).dropWhile (fun b => p (asChar b)) = octets (text.dropWhile p) := by
  induction text with
  | nil => exact ⟨rfl, rfl⟩
  | cons c cs ih =>
    have hbytes : ∃ b bs, String.utf8EncodeChar c = b :: bs ∧
        ∀ d ∈ b :: bs, p (asChar d) = p c := by
      by_cases hc : c.toNat < 128
      · obtain ⟨b, hb, hchar, -⟩ := utf8EncodeChar_ascii hc
        refine ⟨b, [], hb, ?_⟩
        intro d hd
        rw [List.mem_singleton.1 hd, hchar]
      · obtain ⟨b, bs, hb, -, hother⟩ := utf8EncodeChar_other (Nat.le_of_not_lt hc)
        exact ⟨b, bs, hb, fun d hd => h _ _ (hother d hd) (Nat.le_of_not_lt hc)⟩
    obtain ⟨b, bs, hb, hsame⟩ := hbytes
    rw [octets_cons, hb]
    cases hp : p c with
    | true =>
      rw [hp] at hsame
      rw [List.takeWhile_append_of_pos hsame, List.dropWhile_append_of_pos hsame, ih.1, ih.2,
        List.takeWhile_cons_of_pos hp, List.dropWhile_cons_of_pos hp, octets_cons, hb]
      exact ⟨rfl, rfl⟩
    | false =>
      rw [hp] at hsame
      have hstop := hsame b (.head bs)
      simp only [List.cons_append, List.takeWhile_cons, List.dropWhile_cons, hp, hstop,
        Bool.false_eq_true, if_false, octets_cons, octets_nil, hb, and_self]

/-! ### The first segment -/

/-- Bytes cut in two. -/
abbrev Halves := List UInt8 × List UInt8

/-- Whether this character comes next. -/
def Next (c : Char) (bs : List UInt8) : Prop := bs.head?.map asChar = some c

instance (c : Char) (bs : List UInt8) : Decidable (Next c bs) := inferInstanceAs (Decidable (_ = _))

/-- The bytes that pass the test, and what comes after them. -/
def run (p : Char → Bool) (bs : List UInt8) : Halves :=
  (bs.takeWhile fun b => p (asChar b), bs.dropWhile fun b => p (asChar b))

def numeral (bs : List UInt8) : Halves :=
  let whole := run Char.isDigit bs
  let fraction := run Char.isDigit whole.2.tail
  if Next '.' whole.2 ∧ whole.2.tail.head?.any (fun b => (asChar b).isDigit) then
    (whole.1 ++ whole.2.take 1 ++ fraction.1, fraction.2)
  else whole

def quoted (quote : UInt8) (bs : List UInt8) : Halves :=
  let contents := run (· ≠ '"') bs
  (quote :: contents.1 ++ contents.2.take 1, contents.2.tail)

def symbol (s : Symbol) (b : UInt8) (bs : List UInt8) : Halves :=
  if s.withEqual?.isSome ∧ Next '=' bs then (b :: bs.take 1, bs.tail) else ([b], bs)

/-- The bytes of the first segment of `b :: bs`, found by looking at single bytes, and the bytes
after it. -/
def first (b : UInt8) (bs : List UInt8) : Halves :=
  let c := asChar b
  if isBlank c then ([b], bs)
  else if c = '"' then quoted b bs
  else if c.isDigit then numeral (b :: bs)
  else if isNameStart c then run isNamePart (b :: bs)
  else if c = '/' ∧ Next '/' bs then run (· ≠ '\n') (b :: bs)
  else match Symbol.ofChar? c with
    | some s => symbol s b bs
    | none => ((b :: bs).take (width b), (b :: bs).drop (width b))

/-- The bytes of a segment and those after it. -/
def ofCut (cut : Segment.Cut) : Halves := (octets cut.text, octets cut.rest)

theorem run_octets {p : Char → Bool} (h : Uniform p) (text : List Char) :
    run p (octets text) = (octets (text.takeWhile p), octets (text.dropWhile p)) := by
  rw [run, (takeWhile_octets h text).1, (takeWhile_octets h text).2]

/-- An ASCII character comes next in the bytes if it does in the text. -/
theorem head?_octets {p : Char → Bool} (h : ∀ c, p c = true → c.toNat < 128) (text : List Char) :
    (octets text).head?.any (fun b => p (asChar b)) = text.head?.any p := by
  cases text with
  | nil => rfl
  | cons c cs =>
    by_cases hc : c.toNat < 128
    · obtain ⟨b, hb, hchar, -⟩ := utf8EncodeChar_ascii hc
      simp [octets_cons, hb, hchar]
    · obtain ⟨b, bs, hb, -, hother⟩ := utf8EncodeChar_other (Nat.le_of_not_lt hc)
      have hsame := uniform_of_ascii h _ _ (hother b (.head bs)) (Nat.le_of_not_lt hc)
      simp [octets_cons, hb, hsame]

theorem next_octets {e : Char} (he : e.toNat < 128) {text : List Char} :
    Next e (octets text) ↔ text.head? = some e := by
  have hascii : ∀ c : Char, decide (c = e) = true → c.toNat < 128 := by
    intro c hc
    rwa [of_decide_eq_true hc]
  have h := head?_octets hascii text
  simpa [Next, Option.any_eq_true] using Bool.eq_iff_iff.1 h

/-- What follows a run of characters begins with a character that comes next. -/
theorem exists_octets_cons {c : Char} (hc : c.toNat < 128) :
    ∃ b, (∀ cs, octets (c :: cs) = b :: octets cs) ∧ asChar b = c ∧ width b = 1 := by
  obtain ⟨b, hb, hchar, hwidth⟩ := utf8EncodeChar_ascii hc
  refine ⟨b, ?_, hchar, hwidth⟩
  intro cs
  rw [octets_cons, hb, List.singleton_append]

theorem lt_of_isDigit {c : Char} (h : c.isDigit = true) : c.toNat < 128 := by
  simp only [Char.isDigit, Bool.and_eq_true, decide_eq_true_eq, UInt32.le_iff_toNat_le] at h
  exact Nat.lt_of_le_of_lt h.2 (by decide)

theorem lt_of_isNamePart {c : Char} (h : isNamePart c = true) : c.toNat < 128 := by
  rcases isNamePart_iff.1 h with (h | h | rfl) | h
  · exact Nat.lt_of_le_of_lt h.2 (by decide)
  · exact Nat.lt_of_le_of_lt h.2 (by decide)
  · decide
  · exact lt_of_isDigit (isDigit_iff.2 h)

theorem numeral_octets (text : List Char) :
    numeral (octets text) = ofCut (Segment.numeral text) := by
  have hrun := run_octets (uniform_of_ascii fun _ => lt_of_isDigit)
  have hpoint := @next_octets '.' (by decide) (text.dropWhile Char.isDigit)
  unfold numeral Segment.numeral
  simp only [hrun, hpoint]
  generalize text.dropWhile Char.isDigit = rest
  cases rest with
  | nil => rfl
  | cons c cs =>
    by_cases hc : c = '.'
    · subst hc
      obtain ⟨b, hb, -⟩ := exists_octets_cons (show '.'.toNat < 128 by decide)
      cases cs with
      | nil => rfl
      | cons d ds =>
        have hdigit := head?_octets (fun _ => lt_of_isDigit) (d :: ds)
        simp only [hb, List.tail_cons, hdigit, hrun]
        by_cases hd : d.isDigit = true
        · simp [hd, ofCut, octets_append, hb]
        · simp [hd, ofCut, hb]
    · rw [if_neg (by simp [hc])]
      split
      · next heq => exact absurd (List.cons.inj heq).1 hc
      · rfl

theorem quoted_octets {quote : UInt8} (hquote : ∀ cs, octets ('"' :: cs) = quote :: octets cs)
    (cs : List Char) : quoted quote (octets cs) = ofCut (Segment.quoted cs) := by
  have hrun := run_octets (uniform_ne (show '"'.toNat < 128 by decide)) cs
  have hhead := List.head?_dropWhile_not (· ≠ '"') cs
  unfold quoted Segment.quoted
  simp only [hrun]
  cases hdrop : cs.dropWhile (· ≠ '"') with
  | cons q rest =>
    rw [hdrop] at hhead
    obtain rfl : q = '"' := by simpa using hhead
    simp [ofCut, octets_append, octets_nil, hquote]
  | nil => simp [ofCut, octets_nil, hquote]

theorem symbol_octets (s : Symbol) {c : Char} {b : UInt8}
    (hb : ∀ cs, octets (c :: cs) = b :: octets cs) (cs : List Char) :
    symbol s b (octets cs) = ofCut (Segment.symbol s c cs) := by
  unfold symbol Segment.symbol
  simp only [@next_octets '=' (by decide) cs]
  by_cases hequal : s.withEqual?.isSome ∧ cs.head? = some '='
  · obtain ⟨t, ht⟩ := Option.isSome_iff_exists.1 hequal.1
    obtain ⟨rest, rfl⟩ := List.head?_eq_some_iff.1 hequal.2
    obtain ⟨e, he, -⟩ := exists_octets_cons (show '='.toNat < 128 by decide)
    simp [ofCut, ht, hb, he, octets_nil]
  · rw [if_neg hequal]
    split
    · next heq => simp [heq] at hequal
    · rw [ofCut, hb, octets_nil]

/-- Beyond ASCII, no character begins a token, a string or a comment. -/
theorem starts_nothing {c : Char} (h : 128 ≤ c.toNat) :
    isBlank c = false ∧ c ≠ '"' ∧ c.isDigit = false ∧ isNameStart c = false ∧ c ≠ '/' ∧
      Symbol.ofChar? c = none := by
  have hne : ∀ d : Char, d.toNat < 128 → c ≠ d := by
    rintro d hd rfl
    omega
  refine ⟨?_, hne _ (by decide), ?_, ?_, hne _ (by decide), ?_⟩
  · simp [isBlank, hne]
  · rw [Bool.eq_false_iff]
    intro hdigit
    exact absurd (lt_of_isDigit hdigit) (Nat.not_lt.2 h)
  · rw [Bool.eq_false_iff]
    intro hstart
    exact absurd (lt_of_isNamePart (isNamePart_of_isNameStart hstart)) (Nat.not_lt.2 h)
  · unfold Symbol.ofChar?
    split
    all_goals first | rfl | exact absurd rfl (hne _ (by decide))

/-- Scanning byte by byte cuts off the first segment of a text. -/
theorem first_octets {c : Char} {cs : List Char} {b : UInt8} {bs : List UInt8}
    (h : octets (c :: cs) = b :: bs) : first b bs = ofCut (Segment.first c cs) := by
  by_cases hc : c.toNat < 128
  · obtain ⟨d, hd, hchar, hwidth⟩ := exists_octets_cons hc
    obtain ⟨rfl, rfl⟩ := List.cons.inj ((hd cs).symm.trans h)
    have hone : octets [c] = [d] := hd []
    unfold first Segment.first
    simp only [hchar, ← h, @next_octets '/' (by decide) cs, numeral_octets, symbol_octets _ hd,
      run_octets (uniform_of_ascii fun _ => lt_of_isNamePart),
      run_octets (uniform_ne (show '\n'.toNat < 128 by decide))]
    split
    · rw [ofCut, hone]
    split
    · next hquote =>
      subst hquote
      exact quoted_octets hd cs
    split
    · rfl
    split
    · rfl
    split
    · rfl
    cases hsymbol : Symbol.ofChar? c with
    | some s => rfl
    | none =>
      simp only [h, hwidth, ofCut, hone]
      rfl
  · have hother := Nat.le_of_not_lt hc
    obtain ⟨d, ds, hd, hwidth, hbytes⟩ := utf8EncodeChar_other hother
    obtain ⟨hblank, hquote, hdigit, hletter, hslash, hsymbol⟩ := starts_nothing hother
    obtain ⟨hblank', hquote', hdigit', hletter', hslash', hsymbol'⟩ :=
      starts_nothing (hbytes d (.head ds))
    have hone : octets [c] = d :: ds := by rw [octets_cons, hd, octets_nil, List.append_nil]
    rw [octets_cons, hd] at h
    obtain ⟨rfl, rfl⟩ := List.cons.inj h
    simp only [first, Segment.first, hblank, hquote, hdigit, hletter, hslash, hsymbol, hblank',
      hquote', hdigit', hletter', hslash', hsymbol', Bool.false_eq_true, if_false, false_and]
    rw [ofCut, hone, hwidth]
    have htake : ((d :: ds) ++ octets cs).take (d :: ds).length = d :: ds := List.take_left
    have hdrop : ((d :: ds) ++ octets cs).drop (d :: ds).length = octets cs := List.drop_left
    exact Prod.ext htake hdrop

end Octets

end Lox
