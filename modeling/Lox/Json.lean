import Lox.Number.Text

/-!
# JSON

Values of JSON and their text, one member or element a line, indented by two spaces a level.
-/

namespace Lox

inductive Json where
  | null
  | natural (value : Nat)
  | number (value : Number)
  | string (value : String)
  | array (elements : List Json)
  | object (members : List (String × Json))

namespace Json

def hexDigit (n : Nat) : Char := Nat.digitChar (n % 16)

/-- A character within quotes. Below the space, all are escaped. -/
def escape (c : Char) : String :=
  match c with
  | '"' => "\\\""
  | '\\' => "\\\\"
  | '\n' => "\\n"
  | '\r' => "\\r"
  | '\t' => "\\t"
  | '\x08' => "\\b"
  | '\x0c' => "\\f"
  | c =>
    if c.toNat < 32 then
      "\\u00" ++ String.ofList [hexDigit (c.toNat / 16), hexDigit c.toNat]
    else c.toString

def quote (s : String) : String :=
  s.foldl (fun text c => text ++ escape c) "\"" ++ "\""

/-- A line break and the indentation of a level. -/
def newline (level : Nat) : String := "\n" ++ "".pushn ' ' (2 * level)

/-- Items in brackets that stand `level` levels deep, each item on a line of its own. -/
def bracketed (level : Nat) (opening closing : String) : List String → String
  | [] => opening ++ closing
  | items =>
    opening ++ newline (level + 1) ++ ("," ++ newline (level + 1)).intercalate items ++
      newline level ++ closing

mutual

/-- The text of a value that stands `level` levels deep. -/
def textAt (level : Nat) : Json → String
  | null => "null"
  | natural value => toString value
  | number value => value.json
  | string value => quote value
  | array elements => bracketed level "[" "]" (elementsAt (level + 1) elements)
  | object members => bracketed level "\x7b" "\x7d" (membersAt (level + 1) members)

def elementsAt (level : Nat) : List Json → List String
  | [] => []
  | e :: rest => e.textAt level :: elementsAt level rest

def membersAt (level : Nat) : List (String × Json) → List String
  | [] => []
  | (key, value) :: rest => (quote key ++ ": " ++ value.textAt level) :: membersAt level rest

end

def text (j : Json) : String := j.textAt 0

end Json

end Lox
