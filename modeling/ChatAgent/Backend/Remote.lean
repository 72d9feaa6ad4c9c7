import ChatAgent.Backend.Stream
import ChatAgent.Backend.Turn
import ChatAgent.Http.Exchange
import ChatAgent.Json.Text
import ChatAgent.Text.Blank
import ChatAgent.Text.Quoted

/-!
Backends that are reached over HTTP. A request is posted to the peer, which streams its answer, one
chunk a line; a response that is no success refuses the request, with its body as the reason.
-/

namespace ChatAgent

/-- Where a backend is. -/
structure RemoteBackend where
  base : String
  chat : String
  deriving DecidableEq, Repr

namespace RemoteBackend

/-- The backend at an address. -/
def ofUrl (address : String) : RemoteBackend :=
  let base := Text.trimSlashes address
  ⟨base, base ++ "/api/chat"⟩

/-- The address that is used unless another is configured. -/
def defaultUrl : String := "http://localhost:11434"

/-- Shows a backend by its address. -/
def describe (b : RemoteBackend) : String :=
  "OllamaChatBackend \x7b chat_url: " ++ Text.quoted b.chat ++ " \x7d"

/-- The request for one turn. -/
def call (b : RemoteBackend) (r : BackendRequest) : Http.Call := .postJson b.chat r.toJson.text

/-- The reason that a response gives which is no success: its body, or else its status. A body that
breaks off says nothing. -/
def refusal (r : Http.Response) : String :=
  let said :=
    match r.ending with
    | .whole => Text.lossy r.body
    | _ => ""
  if Text.isBlankText said then Http.statusText r.status else said

/-- The pieces of a body, and its end if that is not as it should be. -/
def segments (t : Http.Transport) (r : Http.Response) : List Segment :=
  (t.pieces r).map Segment.bytes ++
    match r.ending with
    | .broken => [.broken (t.broken r)]
    | .stalled => [.silence]
    | .whole => []

/-- The turn that a response means. -/
def turnOfResponse (t : Http.Transport) (r : Http.Response) : Turn :=
  if Http.isSuccess r.status then
    .streamed (StreamItem.ofSegments (segments t r)) (r.ending = .stalled)
  else if r.ending = .stalled then .silent
  else .status (refusal r)

/-- The turn that has come of a request. -/
def turn (t : Http.Transport) : Http.Contact → Turn
  | .failed reason => .unavailable reason
  | .silence => .silent
  | .response r => turnOfResponse t r

/-- Asks a peer for a turn. -/
def ask (b : RemoteBackend) (p : Http.Peer) (r : BackendRequest) : Turn :=
  turn .usual ((b.call r).place p).1

/-- The requests that a peer gets when it is asked for a turn. -/
def sent (b : RemoteBackend) (p : Http.Peer) (r : BackendRequest) : List Http.Request :=
  ((b.call r).place p).2

/-- The backend, given what comes of each call and how the network delivers the responses. -/
def through (b : RemoteBackend) (transport : Nat → Http.Transport)
    (contact : Nat → Http.Call → Http.Contact) : Backend :=
  fun n r => turn (transport n) (contact n (b.call r))

/-- The backend, given what the peer does with each request. -/
def toBackend (b : RemoteBackend) (peer : Nat → Http.Peer) : Backend := fun n r => b.ask (peer n) r

end RemoteBackend

end ChatAgent
