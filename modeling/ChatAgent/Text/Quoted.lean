import ChatAgent.Text.Hidden

/-!
Quoted text: how a message shows a value that somebody else wrote. Quotes stand around it, a quote
or a backslash inside is preceded by a backslash, and what a reader would not see is written by
its name (`\n`) or its number (`\u` and the code point in braces).
-/

namespace ChatAgent.Text

/-- One hexadecimal digit, small. -/
def hexDigit (n : Nat) : Char := Nat.digitChar n

/-- A number in hexadecimal, without leading zeros. -/
def hex (n : Nat) : List Char := Nat.toDigits 16 n

/-- How a quoted text writes one character. -/
def quoteChar (c : Char) : List Char :=
  match c with
  | '"' => ['\\', '"']
  | '\\' => ['\\', '\\']
  | '\t' => ['\\', 't']
  | '\n' => ['\\', 'n']
  | '\r' => ['\\', 'r']
  | '\x00' => ['\\', '0']
  | c =>
    if isHidden c then ['\\', 'u', '\x7b'] ++ hex c.toNat ++ ['\x7d'] else [c]

/-- A text in quotes. -/
def quoted (s : String) : String :=
  String.ofList ('"' :: s.toList.flatMap quoteChar ++ ['"'])

/-- Quoted texts in brackets, with commas between them. -/
def quotedList (ss : List String) : String :=
  "[" ++ ", ".intercalate (ss.map quoted) ++ "]"

end ChatAgent.Text
