import ChatAgent.Text.Utf8

/-!
Lines out of bytes that arrive piece by piece. A line ends with its newline and is decoded as a
whole, so it does not matter where the pieces were cut. A line that is too long, whether it has
ended yet or not, is refused together with all that came with it.
-/

namespace ChatAgent.Text

/-- The byte that ends a line. -/
def newline : UInt8 := 10

/-- Cuts bytes after each newline: the lines, and what no newline has ended yet. What precedes the
bytes is given in reverse. -/
def cutFrom : List UInt8 → List UInt8 → List (List UInt8) → List (List UInt8) × List UInt8
  | [], held, lines => (lines.reverse, held.reverse)
  | b :: bs, held, lines =>
    if b = newline then cutFrom bs [] ((b :: held).reverse :: lines)
    else cutFrom bs (b :: held) lines

/-- Cuts bytes after each newline. -/
def cut (bs : List UInt8) : List (List UInt8) × List UInt8 := cutFrom bs [] []

/-- Bytes that have arrived and that no newline has ended yet. -/
structure LineBuffer where
  /-- How long a line may be, its newline not counted. -/
  limit : Nat
  held : List UInt8
  deriving DecidableEq, Repr

namespace LineBuffer

/-- Nothing has arrived. -/
def empty (limit : Nat) : LineBuffer := ⟨limit, []⟩

/-- A line, with its newline, is longer than the limit. -/
def tooLong (b : LineBuffer) (line : List UInt8) : Bool := b.limit + 1 < line.length

/-- Takes bytes in. The answer is the lines that they complete, or none if one is too long; then
all bytes are forgotten. -/
def push (b : LineBuffer) (bs : List UInt8) : Option (List String) × LineBuffer :=
  let (lines, rest) := cut (b.held ++ bs)
  if lines.any b.tooLong || b.limit < rest.length then (none, { b with held := [] })
  else (some (lines.map lossy), { b with held := rest })

/-- What is left when no more bytes arrive. -/
def finish (b : LineBuffer) : Option String × LineBuffer :=
  (if b.held.isEmpty then none else some (lossy b.held), { b with held := [] })

end LineBuffer

end ChatAgent.Text
