import ChatAgent.Backend.Chunk

/-!
Replies: what the chunks of one turn add up to. The text of all chunks is put together. The message
that is kept is the first one that asks for tools, or else the first one of all; what comes later
never takes the place of a message that asks for tools.
-/

namespace ChatAgent

/-- What has come of a turn so far. -/
structure Gathering where
  kept : Option ChunkMessage
  /-- The text, the latest piece first. -/
  pieces : List String
  done : Bool
  deriving DecidableEq

namespace Gathering

/-- Nothing has come. -/
def empty : Gathering := ⟨none, [], false⟩

/-- Whether the message that is kept asks for tools. -/
def asks (g : Gathering) : Bool :=
  match g.kept with
  | some m => m.asks
  | none => false

/-- The message that is kept when `m` has come. -/
def keep (g : Gathering) (m : ChunkMessage) : Option ChunkMessage :=
  if !g.asks && (m.asks || g.kept.isNone) then some m else g.kept

/-- The text that a chunk adds, if it adds any. -/
def delta? (c : Chunk) : Option String :=
  match c.message.bind (·.content) with
  | some s => if s.isEmpty then none else some s
  | none => none

/-- Takes a chunk in. -/
def push (g : Gathering) (c : Chunk) : Gathering where
  kept :=
    match c.message with
    | some m => g.keep m
    | none => g.kept
  pieces := (delta? c).toList ++ g.pieces
  done := g.done || c.done

/-- The whole text. -/
def text (g : Gathering) : String := String.join g.pieces.reverse

end Gathering

/-- What a turn comes to. -/
structure Reply where
  /-- The message that was kept, with the text of the whole turn. -/
  message : Option ChunkMessage
  /-- Whether the backend said that the turn was complete. -/
  done : Bool
  deriving DecidableEq

namespace Reply

/-- What the chunks have come to. -/
def ofGathering (g : Gathering) : Reply where
  message :=
    match g.kept with
    | some m => some { m with content := some g.text }
    | none => none
  done := g.done

/-- The text of the turn. -/
def content (r : Reply) : String := (r.message.bind (·.content)).getD ""

/-- The tool calls of the turn. -/
def toolCalls (r : Reply) : List ToolCall :=
  match r.message with
  | some m => m.toolCallsOf
  | none => []

end Reply

end ChatAgent
