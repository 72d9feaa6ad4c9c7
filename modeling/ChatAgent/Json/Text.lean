import ChatAgent.Json.Basic

/-!
JSON text, written without white space. In strings only the quote, the backslash and the
characters below U+0020 are escaped; all others stand for themselves.
-/

namespace ChatAgent.Json

/-- A hexadecimal digit. -/
def hexDigit (n : Nat) : Char := Nat.digitChar (n % 16)

/-- How a string writes one character. -/
def escape (c : Char) : List Char :=
  match c with
  | '"' => ['\\', '"']
  | '\\' => ['\\', '\\']
  | '\x08' => ['\\', 'b']
  | '\t' => ['\\', 't']
  | '\n' => ['\\', 'n']
  | '\x0c' => ['\\', 'f']
  | '\r' => ['\\', 'r']
  | c =>
    if c.toNat < 0x20 then ['\\', 'u', '0', '0', hexDigit (c.toNat / 16), hexDigit c.toNat]
    else [c]

/-- A string in quotes. -/
def stringChars (s : String) : List Char := '"' :: (s.toList.flatMap escape ++ ['"'])

/-- The text of a number. -/
def numberChars (n : Number) : List Char := (n.text .json).toList

mutual

/-- The text of a value. -/
def chars : Json → List Char
  | .null => ['n', 'u', 'l', 'l']
  | .bool true => ['t', 'r', 'u', 'e']
  | .bool false => ['f', 'a', 'l', 's', 'e']
  | .number n => numberChars n
  | .string s => stringChars s
  | .array [] => ['[', ']']
  | .array (v :: vs) => '[' :: (chars v ++ itemChars vs)
  | .object [] => ['{', '}']
  | .object ((k, v) :: fs) => '{' :: (stringChars k ++ ':' :: (chars v ++ fieldChars fs))

/-- The text of the further items of an array, up to its end. -/
def itemChars : List Json → List Char
  | [] => [']']
  | v :: vs => ',' :: (chars v ++ itemChars vs)

/-- The text of the further fields of an object, up to its end. -/
def fieldChars : List (String × Json) → List Char
  | [] => ['}']
  | (k, v) :: fs => ',' :: (stringChars k ++ ':' :: (chars v ++ fieldChars fs))

end

/-- The text of a value. -/
def text (j : Json) : String := String.ofList j.chars

end ChatAgent.Json
