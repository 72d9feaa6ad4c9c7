import ChatAgent.Conversation

/-!
What a client asks for: a conversation to be carried on by a model.
-/

namespace ChatAgent

/-- A client's request. -/
structure ChatRequest where
  model : String
  messages : Conversation
  /-- Answers are streamed whatever it says. -/
  stream : Bool
  deriving DecidableEq

namespace ChatRequest

def toJson (r : ChatRequest) : Json :=
  .object [("model", .string r.model), ("messages", r.messages.toJson), ("stream", .bool r.stream)]

def read : Json.Reader ChatRequest := fun n d => do
  let g ← Json.Given.read ["model", "messages", "stream"] n d
  let model ← g.required "model" .string
  let messages ← g.required "messages" Conversation.read
  let stream ← g.orElse "stream" .bool false
  pure ⟨model, messages, stream⟩

end ChatRequest

end ChatAgent
