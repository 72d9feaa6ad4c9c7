/-!
UTF-8. Bytes are decoded by a machine that remembers which continuation bytes a character still
needs; a longest run of bytes that begins a character and cannot be completed is one damaged
spot. A decoded text is a list of optional characters in which `none` marks a damaged spot, so
that a reader may replace it (`lossy`) or refuse it (`text?`).
-/

namespace ChatAgent.Text

/-- The UTF-8 bytes of a text. -/
def encode (cs : List Char) : List UInt8 := cs.flatMap String.utf8EncodeChar

/-- The UTF-8 bytes of a string. -/
def bytes (s : String) : List UInt8 := encode s.toList

namespace Utf8

/-- What the bytes read so far ask of the next one. -/
inductive Pending where
  /-- No character has begun. -/
  | none
  /-- A character has begun: its bits so far, how many more bytes it has after the next one, and
  the range that the next one must lie in. -/
  | more (bits : Nat) (later : Nat) (low high : Nat)
  deriving DecidableEq, Repr

/-- What a byte yields where no character has begun. A byte that begins no character is a damaged
spot by itself. -/
def first (b : Nat) : List (Option Char) × Pending :=
  if b < 0x80 then ([some (Char.ofNat b)], .none)
  else if b < 0xc2 then ([none], .none)
  else if b < 0xe0 then ([], .more (b - 0xc0) 0 0x80 0xbf)
  else if b < 0xf0 then
    let low := if b = 0xe0 then 0xa0 else 0x80
    let high := if b = 0xed then 0x9f else 0xbf
    ([], .more (b - 0xe0) 1 low high)
  else if b < 0xf5 then
    let low := if b = 0xf0 then 0x90 else 0x80
    let high := if b = 0xf4 then 0x8f else 0xbf
    ([], .more (b - 0xf0) 2 low high)
  else ([none], .none)

/-- One byte: what is decoded by it, and what the next byte has to be. -/
def step (p : Pending) (byte : UInt8) : List (Option Char) × Pending :=
  let b := byte.toNat
  match p with
  | .none => first b
  | .more bits later low high =>
    if low ≤ b ∧ b ≤ high then
      let bits := bits * 64 + (b - 0x80)
      match later with
      | 0 => ([some (Char.ofNat bits)], .none)
      | later + 1 => ([], .more bits later 0x80 0xbf)
    else
      let (out, next) := first b
      (none :: out, next)

/-- What the end of the input yields: a character that is not complete is a damaged spot. -/
def finish : Pending → List (Option Char)
  | .none => []
  | .more .. => [none]

/-- Decodes the bytes after `p`, the output so far given in reverse. -/
def decodeFrom : Pending → List (Option Char) → List UInt8 → List (Option Char)
  | p, out, [] => (finish p ++ out).reverse
  | p, out, b :: bs =>
    let (now, next) := step p b
    decodeFrom next (now.reverse ++ out) bs

end Utf8

/-- The characters of a byte sequence, `none` for each damaged spot. -/
def decode (bs : List UInt8) : List (Option Char) := Utf8.decodeFrom .none [] bs

/-- The text of a byte sequence with U+FFFD for each damaged spot. -/
def lossy (bs : List UInt8) : String :=
  String.ofList ((decode bs).map (·.getD '\uFFFD'))

/-- The text of a byte sequence that has no damaged spot. -/
def text? (bs : List UInt8) : Option String :=
  ((decode bs).mapM id).map String.ofList

end ChatAgent.Text
