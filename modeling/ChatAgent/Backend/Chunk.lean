import ChatAgent.Conversation

/-!
Chunks: the pieces in which a backend streams one turn of the model. Backends are loose in what
they send; most fields may be missing, and the arguments of a tool call come as an object or as
a string that holds one.
-/

namespace ChatAgent

/-- The function that a tool call names, as a backend writes it. -/
structure RawFunction where
  name : String
  arguments : Json
  deriving DecidableEq

namespace RawFunction

def toJson (f : RawFunction) : Json :=
  .object [("name", .string f.name), ("arguments", f.arguments)]

def read : Json.Reader RawFunction := fun n d => do
  let g ← Json.Given.read ["name", "arguments"] n d
  let name ← g.orElse "name" .string ""
  let arguments ← g.orElse "arguments" .json .null
  pure ⟨name, arguments⟩

end RawFunction

/-- A tool call as a backend writes it. -/
structure RawCall where
  function : Option RawFunction
  deriving DecidableEq

namespace RawCall

def ofFunction (name : String) (arguments : Json) : RawCall := ⟨some ⟨name, arguments⟩⟩

def toJson (c : RawCall) : Json :=
  .object [("function", Json.orNull (c.function.map RawFunction.toJson))]

def read : Json.Reader RawCall := fun n d => do
  let g ← Json.Given.read ["function"] n d
  let function ← g.optional "function" RawFunction.read
  pure ⟨function⟩

end RawCall

/-- The part of a message that a chunk carries. -/
structure ChunkMessage where
  role : Role
  content : Option String
  toolCalls : Option (List RawCall)
  deriving DecidableEq

namespace ChunkMessage

/-- Text of the assistant. -/
def text (content : String) : ChunkMessage := ⟨.assistant, some content, none⟩

/-- The assistant asks for tools. -/
def asking (calls : List RawCall) : ChunkMessage := ⟨.assistant, some "", some calls⟩

/-- The tool calls, none when the list is missing. -/
def calls (m : ChunkMessage) : List RawCall := m.toolCalls.getD []

/-- Whether the message asks for tools. -/
def asks (m : ChunkMessage) : Bool := !m.calls.isEmpty

def toJson (m : ChunkMessage) : Json :=
  .object [("role", m.role.toJson), ("content", Json.orNull (m.content.map .string)),
    ("tool_calls", Json.orNull (m.toolCalls.map fun cs => .array (cs.map RawCall.toJson)))]

def read : Json.Reader ChunkMessage := fun n d => do
  let g ← Json.Given.read ["role", "content", "tool_calls"] n d
  let role ← g.orElse "role" Role.read .assistant
  let content ← g.optional "content" .string
  let toolCalls ← g.optional "tool_calls" (.list RawCall.read)
  pure ⟨role, content, toolCalls⟩

/-! ## Tool calls -/

/-- The arguments of a call as an object: an object is kept, a string that says an object is
understood, and anything else counts as no arguments. -/
def normalize (arguments : Json) : Json :=
  match arguments with
  | .object _ => arguments
  | .string s =>
    match Json.ofText? s with
    | some (.object fields) => .object fields
    | _ => .empty
  | _ => .empty

/-- The tool call at a position, unless it names no function. -/
def call? (c : RawCall) (position : Nat) : Option ToolCall :=
  match c.function with
  | some f =>
    if f.name.isEmpty then none
    else some ⟨"call_" ++ toString position, f.name, normalize f.arguments⟩
  | none => none

/-- The tool calls of a message. They are named by their position, and those that name no function
leave a gap. -/
def toolCallsOf (m : ChunkMessage) : List ToolCall :=
  m.calls.zipIdx.filterMap fun (c, i) => call? c i

end ChunkMessage

/-- One piece of a turn. -/
structure Chunk where
  message : Option ChunkMessage
  /-- Whether the turn ends here. -/
  done : Bool
  deriving DecidableEq

namespace Chunk

/-- A piece of text. -/
def content (delta : String) : Chunk := ⟨some (.text delta), false⟩

/-- A wish for tools. -/
def calls (cs : List RawCall) : Chunk := ⟨some (.asking cs), false⟩

/-- The last piece of a turn. -/
def last : Chunk := ⟨some (.text ""), true⟩

def toJson (c : Chunk) : Json :=
  .object [("message", Json.orNull (c.message.map ChunkMessage.toJson)), ("done", .bool c.done)]

def read : Json.Reader Chunk := fun n d => do
  let g ← Json.Given.read ["message", "done"] n d
  let message ← g.optional "message" ChunkMessage.read
  let done ← g.orElse "done" .bool false
  pure ⟨message, done⟩

end Chunk

end ChatAgent
