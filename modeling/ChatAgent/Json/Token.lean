import ChatAgent.Json.Literal
import ChatAgent.Text.Utf8

/-!
Tokens of JSON text. A string or number that is written correctly but denotes nothing (half of a
surrogate pair, damaged UTF-8, a number beyond the floats) is a token without a value: it may
stand where nobody looks at it.
-/

namespace ChatAgent.Json

/-- A token of JSON text. -/
inductive Token where
  | openArray
  | closeArray
  | openObject
  | closeObject
  | comma
  | colon
  | null
  | bool (b : Bool)
  | number (n : Option Number)
  | string (s : Option String)
  deriving DecidableEq

/-! ## Strings -/

/-- What stands for one part of a string: a character, a code unit given by its number, or bytes
that are no character. -/
inductive Piece where
  | char (c : Char)
  | unit (n : Nat)
  | stray
  deriving DecidableEq, Repr

namespace Piece

/-- Code units that are one half of a pair. -/
def isHigh (n : Nat) : Bool := 0xd800 ≤ n && n < 0xdc00

/-- Code units that are the other half. -/
def isLow (n : Nat) : Bool := 0xdc00 ≤ n && n < 0xe000

/-- The character that a pair of code units stands for. -/
def pair (high low : Nat) : Char :=
  Char.ofNat (0x10000 + (high - 0xd800) * 0x400 + (low - 0xdc00))

/-- The text of a string, given what precedes it in reverse, if each of its parts has a meaning. -/
def join : List Piece → List Char → Option String
  | [], out => some (String.ofList out.reverse)
  | .char c :: rest, out => join rest (c :: out)
  | .unit a :: .unit b :: rest, out =>
    if isHigh a then if isLow b then join rest (pair a b :: out) else none
    else if isLow a then none
    else join (.unit b :: rest) (Char.ofNat a :: out)
  | .unit a :: rest, out =>
    if isHigh a || isLow a then none else join rest (Char.ofNat a :: out)
  | .stray :: _, _ => none

end Piece

namespace Token

/-- The value of a hexadecimal digit, small or capital. -/
def hexValue? (c : Char) : Option Nat :=
  if c.isDigit then some (c.toNat - '0'.toNat)
  else if 'a' ≤ c ∧ c ≤ 'f' then some (c.toNat - 'a'.toNat + 10)
  else if 'A' ≤ c ∧ c ≤ 'F' then some (c.toNat - 'A'.toNat + 10)
  else none

/-- The number that four hexadecimal digits say. -/
def codeUnit? (a b c d : Char) : Option Nat :=
  match hexValue? a, hexValue? b, hexValue? c, hexValue? d with
  | some a, some b, some c, some d => some (((a * 16 + b) * 16 + c) * 16 + d)
  | _, _, _, _ => none

/-- The character that a letter after a backslash stands for. -/
def escaped? : Char → Option Char
  | '"' => some '"'
  | '\\' => some '\\'
  | '/' => some '/'
  | 'b' => some '\x08'
  | 'f' => some '\x0c'
  | 'n' => some '\n'
  | 'r' => some '\r'
  | 't' => some '\t'
  | _ => none

/-- Reads a string after its opening quote, its parts so far given in reverse. Characters below
U+0020 have to be escaped. -/
def readString : List (Option Char) → List Piece → Option (List Piece × List (Option Char))
  | [], _ => none
  | some '"' :: s, out => some (out.reverse, s)
  | some '\\' :: some 'u' :: some a :: some b :: some c :: some d :: s, out =>
    match codeUnit? a b c d with
    | some n => readString s (.unit n :: out)
    | none => none
  | some '\\' :: some e :: s, out =>
    match escaped? e with
    | some c => readString s (.char c :: out)
    | none => none
  | some '\\' :: _, _ => none
  | some c :: s, out => if c.toNat < 0x20 then none else readString s (.char c :: out)
  | none :: s, out => readString s (.stray :: out)

theorem length_readString {s : List (Option Char)} {out : List Piece} {ps : List Piece}
    {r : List (Option Char)} (h : readString s out = some (ps, r)) : r.length ≤ s.length := by
  fun_induction readString s out <;> simp_all <;> omega

/-! ## Scanning -/

/-- White space between tokens. -/
def isSpace : Option Char → Bool
  | some c => c == ' ' || c == '\t' || c == '\n' || c == '\r'
  | none => false

/-- Reads the token at the front; white space has been taken away. -/
def read : List (Option Char) → Option (Token × List (Option Char))
  | some '[' :: s => some (.openArray, s)
  | some ']' :: s => some (.closeArray, s)
  | some '{' :: s => some (.openObject, s)
  | some '}' :: s => some (.closeObject, s)
  | some ',' :: s => some (.comma, s)
  | some ':' :: s => some (.colon, s)
  | some '"' :: s =>
    match readString s [] with
    | some (ps, s) => some (.string (Piece.join ps []), s)
    | none => none
  | some 'n' :: some 'u' :: some 'l' :: some 'l' :: s => some (.null, s)
  | some 't' :: some 'r' :: some 'u' :: some 'e' :: s => some (.bool true, s)
  | some 'f' :: some 'a' :: some 'l' :: some 's' :: some 'e' :: s => some (.bool false, s)
  | s =>
    match Literal.read s with
    | some (l, s) => some (.number l.number?, s)
    | none => none

theorem length_read {s r : List (Option Char)} {t : Token} (h : read s = some (t, r)) :
    r.length < s.length := by
  unfold read at h
  split at h
  case h_7 =>
    split at h
    · rename_i hs
      cases h
      exact Nat.lt_succ_of_le (length_readString hs)
    · cases h
  case h_11 =>
    split at h
    · rename_i hl
      cases h
      exact Literal.length_read hl
    · cases h
  all_goals
    cases h
    simp only [List.length_cons]
    omega

/-- All tokens of a text, those so far given in reverse. -/
def scan (s : List (Option Char)) (out : List Token) : Option (List Token) :=
  match _ : s.dropWhile isSpace with
  | [] => some out.reverse
  | c :: r =>
    match _ : read (c :: r) with
    | some (t, rest) => scan rest (t :: out)
    | none => none
termination_by s.length
decreasing_by
  rename_i hs hr
  have hle := (List.dropWhile_suffix (p := isSpace) (l := s)).length_le
  have hlt := length_read hr
  rw [hs] at hle
  omega

/-- The tokens of a text. -/
def ofText? (s : String) : Option (List Token) := scan (s.toList.map some) []

/-- The tokens of a text given as bytes. -/
def ofBytes? (bs : List UInt8) : Option (List Token) := scan (Text.decode bs) []

end Token

end ChatAgent.Json
