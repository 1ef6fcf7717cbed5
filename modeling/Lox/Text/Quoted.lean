import Lox.Text.Invisible

/-!
# Quoted text

Text in double quotes, with backslashes before quotes and backslashes, letters for the usual control
characters, and the code points of all others that do not show.
-/

namespace Lox.Text

/-- The code point of a character, in hexadecimal. -/
def codePoint (c : Char) : String := String.ofList (Nat.toDigits 16 c.toNat)

/-- A character within quotes. -/
def escaped (c : Char) : String :=
  match c with
  | '\x00' => "\\0"
  | '\t' => "\\t"
  | '\n' => "\\n"
  | '\r' => "\\r"
  | '"' => "\\\""
  | '\\' => "\\\\"
  | c => if isInvisible c then "\\u\x7b" ++ codePoint c ++ "\x7d" else c.toString

def quoted (s : String) : String := s.foldl (fun text c => text ++ escaped c) "\"" ++ "\""

/-- Quoted texts in brackets. -/
def quotedList (texts : List String) : String :=
  "[" ++ ", ".intercalate (texts.map quoted) ++ "]"

end Lox.Text
