import ChatAgent.Failure
import ChatAgent.Json.Text
import ChatAgent.Tool.Call

/-!
Events: what the client is told while a run goes on, one line of JSON for each. The field `type`
says which event a line is.
-/

namespace ChatAgent

/-- Why a run ends that has not come to an end by itself. -/
inductive DoneReason where
  /-- The cap on the number of turns was reached while the model still asked for tools. -/
  | maxIterations
  deriving DecidableEq, Repr

/-- What the client is told. -/
inductive Event where
  /-- A piece of the model's answer. -/
  | content (delta : String)
  /-- The model asks for a tool. -/
  | toolCall (id name : String) (arguments : Json)
  /-- A tool has finished. -/
  | toolResult (id content : String) (error : Option String)
  /-- The run has failed. -/
  | error (text : String)
  /-- The last event. -/
  | done (reason : Option DoneReason)
  deriving DecidableEq

namespace DoneReason

def name : DoneReason → String
  | maxIterations => "max_iterations"

/-- A reason is a word, or an object with the word as its only name and nothing under it. -/
def read : Json.Reader DoneReason
  | _, .string (some "max_iterations") => some maxIterations
  | _, .object [(some "max_iterations", .null)] => some maxIterations
  | _, .object [(some "max_iterations", .object [])] => some maxIterations
  | _, _ => none

end DoneReason

namespace Event

def ofCall (c : ToolCall) : Event := .toolCall c.id c.name c.arguments

def ofResult (r : ToolResult) : Event := .toolResult r.callId r.content r.error

/-- The word in the field `type`. -/
def kind : Event → String
  | content _ => "content"
  | toolCall .. => "tool_call"
  | toolResult .. => "tool_result"
  | error _ => "error"
  | done _ => "done"

/-- The fields after `type`. -/
def fields : Event → List (String × Json)
  | content delta => [("delta", .string delta)]
  | toolCall id name arguments => [("id", .string id), ("name", .string name), ("args", arguments)]
  | toolResult id text failure =>
    [("id", .string id), ("content", .string text)] ++
      Json.present "error" (failure.map .string)
  | error text => [("error", .string text)]
  | done reason => Json.present "reason" (reason.map fun r => .string r.name)

def toJson (e : Event) : Json := .object (("type", .string e.kind) :: e.fields)

/-- The event as one line, with its end. -/
def line (e : Event) : String := e.toJson.text ++ "\n"

/-! ## Reading -/

/-- The kind that a document gives: in the field `type`, or as the first item of an array. -/
def kindOf? : Json.Document → Option String
  | .object given => (given.lookup (some "type")).bind (Json.Reader.string 0)
  | .array (d :: _) => Json.Reader.string 0 d
  | _ => none

/-- The fields of an event of the given kind. -/
def readKind (kind : String) : Json.Reader Event := fun n d =>
  match kind with
  | "content" => do
    let g ← Json.Given.read ["type", "delta"] n d
    let delta ← g.required "delta" .string
    pure (.content delta)
  | "tool_call" => do
    let g ← Json.Given.read ["type", "id", "name", "args"] n d
    let id ← g.required "id" .string
    let name ← g.required "name" .string
    let arguments ← g.required "args" .json
    pure (.toolCall id name arguments)
  | "tool_result" => do
    let g ← Json.Given.read ["type", "id", "content", "error"] n d
    let id ← g.required "id" .string
    let text ← g.required "content" .string
    let failure ← g.optional "error" .string
    pure (.toolResult id text failure)
  | "error" => do
    let g ← Json.Given.read ["type", "error"] n d
    let text ← g.required "error" .string
    pure (.error text)
  | "done" => do
    let g ← Json.Given.read ["type", "reason"] n d
    let reason ← g.optional "reason" DoneReason.read
    pure (.done reason)
  | _ => none

/-- An event. Fields that it does not have are ignored, but they have to be values. -/
def read : Json.Reader Event := fun n d => do
  let _ ← Json.Reader.json n d
  let kind ← kindOf? d
  readKind kind n d

end Event

end ChatAgent
