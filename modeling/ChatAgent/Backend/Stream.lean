import ChatAgent.Backend.Chunk
import ChatAgent.Failure
import ChatAgent.Text.Blank
import ChatAgent.Text.Lines

/-!
The streamed answer of a backend: one chunk a line, as JSON. Blank lines and lines that are no
chunk are passed over. A line may report an error instead, and reading goes on behind it; it ends
when the bytes end, when the transport breaks or when a line is too long.
-/

namespace ChatAgent

/-- One line of a streamed answer. -/
structure StreamLine where
  chunk : Chunk
  /-- What has gone wrong in the backend. -/
  error : Option String
  deriving DecidableEq

namespace StreamLine

def read : Json.Reader StreamLine := fun n d => do
  let g ← Json.Given.read ["message", "done", "error"] n d
  let message ← g.optional "message" ChunkMessage.read
  let done ← g.orElse "done" .bool false
  let error ← g.optional "error" .string
  pure ⟨⟨message, done⟩, error⟩

end StreamLine

/-- What a streamed answer yields at a time. -/
abbrev StreamItem := Except Failure Chunk

/-- One piece of a streamed answer as the transport delivers it. -/
inductive Segment where
  | bytes (bs : List UInt8)
  /-- The transport breaks. -/
  | broken (reason : String)
  /-- Nothing more arrives, though the answer is not over. -/
  | silence
  deriving DecidableEq, Repr

namespace StreamItem

/-- What a line yields. -/
def ofLine? (line : String) : Option StreamItem :=
  let trimmed := Text.trim line
  if trimmed.isEmpty then none
  else
    match Json.readText? StreamLine.read trimmed with
    | some l =>
      match l.error with
      | some reason => some (.error (.stream reason))
      | none => some (.ok l.chunk)
    | none => none

/-- How long a line may be. -/
def maxLine : Nat := 1024 * 1024

/-- What the segments yield after those in the buffer. -/
def ofSegmentsAfter (buffer : Text.LineBuffer) : List Segment → List StreamItem
  | [] =>
    match buffer.finish.1 with
    | some rest => (ofLine? rest).toList
    | none => []
  | .broken reason :: _ => [.error (.stream reason)]
  | .silence :: _ => []
  | .bytes bs :: segments =>
    match buffer.push bs with
    | (some lines, buffer) => lines.filterMap ofLine? ++ ofSegmentsAfter buffer segments
    | (none, _) => [.error (.stream "line too long")]

/-- What a streamed answer yields. -/
def ofSegments (segments : List Segment) : List StreamItem :=
  ofSegmentsAfter (.empty maxLine) segments

end StreamItem

end ChatAgent
