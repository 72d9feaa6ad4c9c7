import ChatAgent.Json.Reader
import ChatAgent.Json.Record

/-!
Tool calls and what they result in, as they appear in a conversation.
-/

namespace ChatAgent

/-- The model's wish to have a tool run. The arguments are an object. -/
structure ToolCall where
  /-- Names the call within one answer of the model. -/
  id : String
  name : String
  arguments : Json
  deriving DecidableEq

namespace ToolCall

def toJson (c : ToolCall) : Json :=
  .object [("id", .string c.id), ("name", .string c.name), ("arguments", c.arguments)]

/-- Arguments that are not given are the empty object. -/
def read : Json.Reader ToolCall := fun n d => do
  let g ← Json.Given.read ["id", "name", "arguments"] n d
  let id ← g.required "id" .string
  let name ← g.required "name" .string
  let arguments ← g.orElse "arguments" .json .empty
  pure ⟨id, name, arguments⟩

end ToolCall

/-- What a tool call results in: a text, or an error. -/
structure ToolResult where
  /-- The call that this answers. -/
  callId : String
  /-- Empty when there is an error. -/
  content : String
  error : Option String
  deriving DecidableEq

namespace ToolResult

/-- The call succeeds with a text. -/
def success (callId content : String) : ToolResult := ⟨callId, content, none⟩

/-- The call fails. -/
def failure (callId error : String) : ToolResult := ⟨callId, "", some error⟩

def isError (r : ToolResult) : Bool := r.error.isSome

/-- What the model is told. -/
def told (r : ToolResult) : String :=
  match r.error with
  | some error => "Error: " ++ error
  | none => r.content

def toJson (r : ToolResult) : Json :=
  .object ([("tool_call_id", .string r.callId), ("content", .string r.content)] ++
    Json.present "error" (r.error.map .string))

def read : Json.Reader ToolResult := fun n d => do
  let g ← Json.Given.read ["tool_call_id", "content", "error"] n d
  let callId ← g.required "tool_call_id" .string
  let content ← g.orElse "content" .string ""
  let error ← g.optional "error" .string
  pure ⟨callId, content, error⟩

end ToolResult

end ChatAgent
