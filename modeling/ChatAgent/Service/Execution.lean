import ChatAgent.Http.Exchange
import ChatAgent.Json.Reader
import ChatAgent.Json.Text
import ChatAgent.Service.Fault
import ChatAgent.Text.Blank
import ChatAgent.Tool.Activity

/-!
The execution service. A tool hands its call to it as one request and gets back whether the call
succeeded, with a result or an error; the status of the response says nothing.
-/

namespace ChatAgent

/-- What the service answers to a call. -/
structure ServiceAnswer where
  success : Bool
  result : String
  error : String
  deriving DecidableEq, Repr

namespace ServiceAnswer

def read : Json.Reader ServiceAnswer := fun n d => do
  let g ← Json.Given.read ["success", "result", "error"] n d
  let success ← g.required "success" .bool
  let result ← g.orElse "result" .string ""
  let error ← g.orElse "error" .string ""
  pure ⟨success, result, error⟩

/-- What the answer means. -/
def toResult (a : ServiceAnswer) : Except ServiceFault String :=
  if a.success then .ok a.result else .error (.failed a.error)

end ServiceAnswer

namespace Delegation

/-- The call as it is written for the service. -/
def toJson (d : Delegation) : Json := .object [("tool", .string d.tool), ("args", d.arguments)]

end Delegation

/-- Where the execution service is, and how long it may take. -/
structure Service where
  endpoint : String
  limit : Duration
  deriving DecidableEq, Repr

namespace Service

/-- The service at a base address. -/
def ofUrl (base : String) (limit : Duration) : Service :=
  ⟨Text.trimSlashes base ++ "/execute", limit⟩

/-- The request that hands a call over. -/
def call (s : Service) (d : Delegation) : Http.Call := .postJson s.endpoint d.toJson.text

/-- What a response means. -/
def judgeResponse (s : Service) (r : Http.Response) : Except ServiceFault String :=
  match r.ending with
  | .stalled => .error (.timedOut s.limit)
  | .broken => .error (.invalidResponse Http.badBody)
  | .whole =>
    match Json.readBytes? ServiceAnswer.read r.body with
    | some a => a.toResult
    | none => .error (.invalidResponse Http.badBody)

/-- What has come of handing a call over. -/
def judge (s : Service) : Http.Contact → Except ServiceFault String
  | .failed reason => .error (.unreachable reason)
  | .silence => .error (.timedOut s.limit)
  | .response r => s.judgeResponse r

/-- Hands a call to whoever the network leads to. -/
def ask (s : Service) (network : Http.Call → Http.Contact) (d : Delegation) :
    Except ServiceFault String :=
  s.judge (network (s.call d))

/-- Hands a call to a peer. -/
def execute (s : Service) (p : Http.Peer) (d : Delegation) : Except ServiceFault String :=
  s.ask (fun call => (call.place p).1) d

/-- The requests that a peer gets when a call is handed to it. -/
def sent (s : Service) (p : Http.Peer) (d : Delegation) : List Http.Request :=
  ((s.call d).place p).2

end Service

end ChatAgent
