/-!
# UTF-8

Bytes read as text, with the place and length of the first sequence that is not well formed: the
bytes that could begin a character, up to the byte that cannot go on, or all bytes that are left if
they could be the beginning of one.
-/

namespace Lox.Text

/-- The first sequence of bytes that is no character. The length is missing where the bytes end too
early. -/
structure Malformed where
  index : Nat
  length : Option Nat
deriving DecidableEq

def Malformed.message (m : Malformed) : String :=
  match m.length with
  | some n =>
    "invalid utf-8 sequence of " ++ toString n ++ " bytes from index " ++ toString m.index
  | none => "incomplete utf-8 byte sequence from index " ++ toString m.index

namespace Utf8

/-- How many bytes follow the first byte of a character. -/
def following? (first : UInt8) : Option Nat :=
  let n := first.toNat
  if n < 0x80 then some 0
  else if 0xc2 ≤ n ∧ n ≤ 0xdf then some 1
  else if 0xe0 ≤ n ∧ n ≤ 0xef then some 2
  else if 0xf0 ≤ n ∧ n ≤ 0xf4 then some 3
  else none

/-- Whether a byte may follow the first byte of a character. It may not if the character had a
shorter form, were a surrogate or lay past the last code point. -/
def mayFollow (first second : UInt8) : Bool :=
  let n := second.toNat
  match first.toNat with
  | 0xe0 => 0xa0 ≤ n && n ≤ 0xbf
  | 0xed => 0x80 ≤ n && n ≤ 0x9f
  | 0xf0 => 0x90 ≤ n && n ≤ 0xbf
  | 0xf4 => 0x80 ≤ n && n ≤ 0x8f
  | _ => 0x80 ≤ n && n ≤ 0xbf

/-- Reads `count` bytes after the `seen` bytes of a character that make up `value`. -/
def continuation (allowed : UInt8 → Bool) :
    (count seen value : Nat) → List UInt8 → Except (Option Nat) (Nat × List UInt8)
  | 0, _, value, bytes => .ok (value, bytes)
  | _ + 1, _, _, [] => .error none
  | count + 1, seen, value, byte :: rest =>
    if allowed byte then
      continuation (mayFollow 0x80) count (seen + 1) (64 * value + byte.toNat % 64) rest
    else .error (some seen)

/-- The character at the front, as a code point, and the bytes after it. -/
def character (first : UInt8) (rest : List UInt8) : Except (Option Nat) (Nat × List UInt8) :=
  match following? first with
  | some 0 => .ok (first.toNat, rest)
  | some count =>
    continuation (mayFollow first) count 1 (first.toNat % Nat.pow 2 (6 - count)) rest
  | none => .error (some 1)

theorem continuation_length {allowed : UInt8 → Bool} {count seen value codePoint : Nat}
    {bytes rest : List UInt8}
    (h : continuation allowed count seen value bytes = .ok (codePoint, rest)) :
    rest.length ≤ bytes.length := by
  fun_induction continuation allowed count seen value bytes with
  | case1 => simp_all
  | case2 => simp at h
  | case3 allowed count seen value byte tail hb ih =>
    have := ih h
    simp only [List.length_cons]
    omega
  | case4 => simp at h

theorem character_length {first : UInt8} {codePoint : Nat} {bytes rest : List UInt8}
    (h : character first bytes = .ok (codePoint, rest)) : rest.length ≤ bytes.length := by
  unfold character at h
  split at h
  · simp_all
  · exact continuation_length h
  · simp at h

/-- The characters of bytes that start at `index`, after those in `before`, newest first. -/
def decodeFrom (index : Nat) (before : List Char) (bytes : List UInt8) :
    Except Malformed (List Char) :=
  match bytes with
  | [] => .ok before.reverse
  | first :: tail =>
    match _h : character first tail with
    | .ok (codePoint, rest) =>
      decodeFrom (index + (Char.ofNat codePoint).utf8Size) (.ofNat codePoint :: before) rest
    | .error length => .error ⟨index, length⟩
termination_by bytes.length
decreasing_by
  have := character_length _h
  simp only [List.length_cons]
  omega

/-- The text that bytes spell. -/
def decode (bytes : List UInt8) : Except Malformed String :=
  (decodeFrom 0 [] bytes).map String.ofList

end Utf8

end Lox.Text
