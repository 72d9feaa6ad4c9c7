import ChatAgent.Backend.Chunk
import ChatAgent.Tool.Definition

/-!
What a backend is asked: the whole conversation, and the tools that the model may ask for. On the
wire every message has a text, tool calls are written as functions, and the answer is to be
streamed.
-/

namespace ChatAgent

/-- The request for one turn. -/
structure BackendRequest where
  model : String
  messages : Conversation
  tools : List Offer
  deriving DecidableEq

/-- A message as a backend takes it. -/
structure BackendMessage where
  role : Role
  content : String
  toolCalls : Option (List RawCall)
  toolCallId : Option String
  deriving DecidableEq

namespace BackendMessage

/-- The ids of tool calls are left out; their order stands for them. -/
def ofMessage (m : Message) : BackendMessage where
  role := m.role
  content := m.text
  toolCalls := m.toolCalls.map fun cs => cs.map fun c => .ofFunction c.name c.arguments
  toolCallId := m.toolCallId

def toJson (m : BackendMessage) : Json :=
  .object ([("role", m.role.toJson), ("content", .string m.content)] ++
    Json.present "tool_calls" (m.toolCalls.map fun cs => .array (cs.map RawCall.toJson)) ++
    Json.present "tool_call_id" (m.toolCallId.map .string))

end BackendMessage

namespace BackendRequest

/-- The body of the request. -/
def toJson (r : BackendRequest) : Json :=
  .object [("model", .string r.model),
    ("messages", .array (r.messages.map fun m => (BackendMessage.ofMessage m).toJson)),
    ("stream", .bool true), ("tools", .array (r.tools.map Offer.toJson))]

end BackendRequest

end ChatAgent
