import ChatAgent.Tool.Call

/-!
Conversations: messages in the order in which they were said.
-/

namespace ChatAgent

/-- Who says a message. -/
inductive Role where
  | system
  | user
  | assistant
  | tool
  deriving DecidableEq, Repr

namespace Role

def name : Role → String
  | system => "system"
  | user => "user"
  | assistant => "assistant"
  | tool => "tool"

def all : List Role := [system, user, assistant, tool]

def toJson (r : Role) : Json := .string r.name

def read : Json.Reader Role := .word (all.map fun r => (r.name, r))

end Role

/-- One message. -/
structure Message where
  role : Role
  content : Option String
  /-- The tool calls that the assistant asks for. -/
  toolCalls : Option (List ToolCall)
  /-- The call that a message of a tool answers. -/
  toolCallId : Option String
  deriving DecidableEq

/-- Messages in order. -/
abbrev Conversation := List Message

namespace Message

/-- A message that is only text. -/
def plain (role : Role) (content : String) : Message := ⟨role, some content, none, none⟩

def system (content : String) : Message := plain .system content

def user (content : String) : Message := plain .user content

def assistant (content : String) : Message := plain .assistant content

/-- A message of the assistant that asks for tools. -/
def asking (content : String) (calls : List ToolCall) : Message :=
  ⟨.assistant, some content, some calls, none⟩

/-- The message that answers a tool call. -/
def ofResult (r : ToolResult) : Message := ⟨.tool, some r.told, none, some r.callId⟩

/-- The text of a message, empty when there is none. -/
def text (m : Message) : String := m.content.getD ""

def toJson (m : Message) : Json :=
  .object ([("role", m.role.toJson)] ++ Json.present "content" (m.content.map .string) ++
    Json.present "tool_calls" (m.toolCalls.map fun cs => .array (cs.map ToolCall.toJson)) ++
    Json.present "tool_call_id" (m.toolCallId.map .string))

def read : Json.Reader Message := fun n d => do
  let g ← Json.Given.read ["role", "content", "tool_calls", "tool_call_id"] n d
  let role ← g.required "role" Role.read
  let content ← g.optional "content" .string
  let toolCalls ← g.optional "tool_calls" (.list ToolCall.read)
  let toolCallId ← g.optional "tool_call_id" .string
  pure ⟨role, content, toolCalls, toolCallId⟩

end Message

namespace Conversation

/-- Puts the system prompt in front, unless some message is of the system already. -/
def withSystem (prompt : String) (c : Conversation) : Conversation :=
  if c.any (·.role = .system) then c else .system prompt :: c

def toJson (c : Conversation) : Json := .array (c.map Message.toJson)

def read : Json.Reader Conversation := .list Message.read

end Conversation

end ChatAgent
