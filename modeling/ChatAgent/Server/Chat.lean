import ChatAgent.Agent.Run
import ChatAgent.Http.Exchange
import ChatAgent.Json.Record

/-!
The chat endpoint: a request that cannot be understood is refused, and any other begins a run, whose
events are the body of the response.
-/

namespace ChatAgent.Chat

/-- The request that a body makes: it has to be one, and to have messages. -/
def request? (body : List UInt8) : Option ChatRequest :=
  (Json.readBytes? ChatRequest.read body).filter (!·.messages.isEmpty)

/-- What has happened in the run that a request begins, and how it has ended. -/
def run (a : Agent) (c : Client) (r : ChatRequest) : Trace × Ending RunOutcome :=
  (a.run r).follow c .empty

/-- The lines of events, as bytes. -/
def eventBytes (es : List Event) : List UInt8 := es.flatMap fun e => Text.bytes e.line

/-- The response that streams the events of a run. It never ends if the run does not. -/
def response (id : String) (done : Trace × Ending RunOutcome) : Http.Response where
  status := 200
  headers :=
    [("content-type", "application/x-ndjson"), ("cache-control", "no-cache"),
      ("x-request-id", id)]
  body := eventBytes done.1.events
  ending :=
    match done.2 with
    | .hung => .stalled
    | _ => .whole

/-- The response to a body, and what has happened in the run if there was one. -/
def handle (a : Agent) (c : Client) (id : String) (body : List UInt8) : Http.Response × Trace :=
  match request? body with
  | none => (.bare 400, .empty)
  | some r =>
    let done := run a c r
    (response id done, done.1)

end ChatAgent.Chat
