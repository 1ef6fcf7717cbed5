import Lox.Diagnostic

/-!
# Segments of a source

A source text falls into segments: a blank, a comment, a token, a character that begins nothing, or
a string that never ends. `Segment.first` cuts off the first segment, the longest that starts
there, and loses no character: `first_text_append_rest`.
-/

namespace Lox

/-- A character between tokens. -/
def isBlank (c : Char) : Bool := c = ' ' || c = '\t' || c = '\r' || c = '\n'

/-- Names are made of ASCII letters, digits and underscores. -/
def isNameStart (c : Char) : Bool := c.isAlpha || c = '_'

def isNamePart (c : Char) : Bool := c.isAlphanum || c = '_'

theorem isNamePart_of_isNameStart {c : Char} (h : isNameStart c = true) : isNamePart c = true := by
  simp only [isNameStart, isNamePart, Char.isAlphanum, Bool.or_eq_true] at *
  exact h.imp_left .inl

/-- The decimal number that digits spell. -/
def decimalValue (digits : List Char) : Nat :=
  digits.foldl (fun n c => 10 * n + (c.toNat - '0'.toNat)) 0

/-- The double that digits before and after a point spell. -/
def numeralValue (whole fraction : List Char) : Number :=
  Decimal.read ⟨decimalValue (whole ++ fraction), -fraction.length⟩

namespace Segment

inductive Kind where
  | blank
  | comment
  | token (kind : Token.Kind)
  | fault (fault : LexicalFault)
deriving DecidableEq

/-- A segment cut off from a text, with what is left of the text. -/
structure Cut where
  kind : Kind
  text : List Char
  rest : List Char

/-- A name or a keyword. -/
def word (cs : List Char) : Cut :=
  let text := cs.takeWhile isNamePart
  let kind := match Keyword.ofText? (String.ofList text) with
    | some k => Token.Kind.keyword k
    | none => .identifier
  ⟨.token kind, text, cs.dropWhile isNamePart⟩

/-- Digits, and a point with more digits if a digit follows the point. -/
def numeral (cs : List Char) : Cut :=
  let whole := cs.takeWhile Char.isDigit
  match cs.dropWhile Char.isDigit with
  | '.' :: d :: rest =>
    if d.isDigit then
      let fraction := d :: rest.takeWhile Char.isDigit
      ⟨.token (.number (numeralValue whole fraction)), whole ++ '.' :: fraction,
        rest.dropWhile Char.isDigit⟩
    else ⟨.token (.number (numeralValue whole [])), whole, '.' :: d :: rest⟩
  | rest => ⟨.token (.number (numeralValue whole [])), whole, rest⟩

/-- The characters up to the next quote, after an opening quote. -/
def quoted (cs : List Char) : Cut :=
  let contents := cs.takeWhile (· ≠ '"')
  match cs.dropWhile (· ≠ '"') with
  | q :: rest => ⟨.token (.string (String.ofList contents)), '"' :: contents ++ [q], rest⟩
  | [] => ⟨.fault .unterminatedString, '"' :: contents, []⟩

/-- A comment ends before the next line break. -/
def comment (cs : List Char) : Cut :=
  ⟨.comment, cs.takeWhile (· ≠ '\n'), cs.dropWhile (· ≠ '\n')⟩

/-- A symbol, with an equals sign if the two make one symbol. -/
def symbol (s : Symbol) (c : Char) (cs : List Char) : Cut :=
  match cs, s.withEqual? with
  | '=' :: rest, some t => ⟨.token (.symbol t), [c, '='], rest⟩
  | _, _ => ⟨.token (.symbol s), [c], cs⟩

/-- The first segment of the text `c :: cs`. -/
def first (c : Char) (cs : List Char) : Cut :=
  if isBlank c then ⟨.blank, [c], cs⟩
  else if c = '"' then quoted cs
  else if c.isDigit then numeral (c :: cs)
  else if isNameStart c then word (c :: cs)
  else if c = '/' ∧ cs.head? = some '/' then comment (c :: cs)
  else match Symbol.ofChar? c with
    | some s => symbol s c cs
    | none => ⟨.fault (.unexpectedCharacter c), [c], cs⟩

theorem word_text_append_rest (cs : List Char) : (word cs).text ++ (word cs).rest = cs :=
  List.takeWhile_append_dropWhile

theorem numeral_text_append_rest (cs : List Char) :
    (numeral cs).text ++ (numeral cs).rest = cs := by
  have h := List.takeWhile_append_dropWhile (p := Char.isDigit) (l := cs)
  unfold numeral
  split
  · next d rest heq =>
    rw [heq] at h
    split
    · simpa [List.takeWhile_append_dropWhile] using h
    · exact h
  · exact h

theorem quoted_text_append_rest (cs : List Char) :
    (quoted cs).text ++ (quoted cs).rest = '"' :: cs := by
  have h := List.takeWhile_append_dropWhile (p := (· ≠ '"')) (l := cs)
  unfold quoted
  split
  · next q rest heq =>
    rw [heq] at h
    simpa using h
  · next heq =>
    rw [heq] at h
    simpa using h

theorem symbol_text_append_rest (s : Symbol) (c : Char) (cs : List Char) :
    (symbol s c cs).text ++ (symbol s c cs).rest = c :: cs := by
  unfold symbol
  split <;> rfl

/-- Cutting loses nothing. -/
theorem first_text_append_rest (c : Char) (cs : List Char) :
    (first c cs).text ++ (first c cs).rest = c :: cs := by
  unfold first
  split
  · rfl
  split
  · next h => rw [h]; exact quoted_text_append_rest cs
  split
  · exact numeral_text_append_rest _
  split
  · exact word_text_append_rest _
  split
  · exact List.takeWhile_append_dropWhile
  split
  · exact symbol_text_append_rest _ c cs
  · rfl

theorem numeral_text_ne_nil {c : Char} (cs : List Char) (h : c.isDigit = true) :
    (numeral (c :: cs)).text ≠ [] := by
  unfold numeral
  split
  · split <;> simp [h]
  · simp [h]

/-- Every segment has a character. -/
theorem first_text_ne_nil (c : Char) (cs : List Char) : (first c cs).text ≠ [] := by
  unfold first
  split
  · simp
  split
  · unfold quoted; split <;> simp
  split
  · next h => exact numeral_text_ne_nil cs h
  split
  · next h =>
    simp [word, isNamePart_of_isNameStart h]
  split
  · next h => simp [comment, h.1]
  split
  · unfold symbol; split <;> simp
  · simp

theorem first_rest_length (c : Char) (cs : List Char) :
    (first c cs).rest.length ≤ cs.length := by
  have h := congrArg List.length (first_text_append_rest c cs)
  have := List.length_pos_iff.2 (first_text_ne_nil c cs)
  simp only [List.length_append, List.length_cons] at h
  omega

end Segment

end Lox
