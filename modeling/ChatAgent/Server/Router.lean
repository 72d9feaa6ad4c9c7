import ChatAgent.Server.Chat
import ChatAgent.Server.Passthrough

/-!
Routing: each path has one route, which takes some methods. All responses may be read from other
origins, and requests for leave to do so are answered without looking at their path.
-/

namespace ChatAgent

/-- What a path leads to. -/
inductive Route where
  /-- Whether the server is well. -/
  | health
  /-- A chat run. -/
  | chat
  /-- The tools. -/
  | tools
  /-- The backend itself. -/
  | generate
  deriving DecidableEq, Repr

namespace Route

/-- The paths and where they lead. -/
def paths : List (String × Route) :=
  [("/health", health), ("/api/chat", chat), ("/chat", chat), ("/api/tools", tools),
    ("/api/generate", generate)]

/-- Whether a route takes a method. `HEAD` is taken where `GET` is. -/
def takes : Route → (method : String) → Bool
  | health, m | tools, m => m == "GET" || m == "HEAD"
  | chat, m => m == "POST" || m == "OPTIONS"
  | generate, _ => true

end Route

/-- A server. -/
structure Server where
  agent : Agent
  /-- The tools that it lists. -/
  registry : Registry
  /-- Where requests are passed through to. -/
  generateUrl : String
  /-- Where the paths lead. -/
  paths : List (String × Route)
  /-- Whether other origins may read the responses. -/
  isOpen : Bool

namespace Server

/-- The server with all its routes. -/
def full (agent : Agent) (r : Registry) (backend : String) : Server :=
  ⟨agent, r, Passthrough.url backend, Route.paths, true⟩

/-- The server with the chat routes only. -/
def chatOnly (s : Server) : Server :=
  { s with paths := s.paths.filter (·.2 = .chat), isOpen := false }

/-- What comes of a request. -/
structure Handled where
  /-- The response, if there ever is one. -/
  response : Option Http.Response
  /-- What has happened in a run. -/
  trace : Trace
  /-- The requests that the backend got that were passed through to it. -/
  forwarded : List Http.Request

namespace Handled

/-- A response and nothing else. -/
def just (r : Http.Response) : Handled := ⟨some r, .empty, []⟩

end Handled

/-! ## Responses -/

def version : String := "0.1.0"

/-- Says that the server is well. -/
def health (r : Registry) : Http.Response :=
  .ofBody 200 "application/json" (Text.bytes (Json.text (.object
    [("status", .string "ok"), ("version", .string version), ("tools", .int r.size)])))

/-- Lists the tools. -/
def tools (r : Registry) : Http.Response :=
  .ofBody 200 "application/json" (Text.bytes (Json.text (.array (r.list.map Definition.toJson))))

/-- How long the body of a request may be. -/
def maxBody : Nat := 2 * 1024 * 1024

/-- The response to a body that is too long. -/
def tooLarge : Http.Response :=
  .ofBody 413 "text/plain; charset=utf-8"
    (Text.bytes "Failed to buffer the request body: length limit exceeded")

/-- The response to another origin that asks for leave. -/
def leave : Http.Response :=
  ⟨200, [("access-control-allow-methods", "GET,POST,OPTIONS"),
    ("access-control-allow-headers", "content-type")], [], .whole⟩

/-- A response that other origins may read. -/
def opened (r : Http.Response) : Http.Response :=
  { r with headers := r.headers ++ [("access-control-allow-origin", "*")] }

/-! ## Requests -/

/-- Does something with the body of a request, unless it is too long. -/
def withBody (r : Http.Request) (use : List UInt8 → Handled) : Handled :=
  if maxBody < r.body.length then .just tooLarge else use r.body

/-- A response that is only looked at, without its body after the method `HEAD`. -/
def looked (r : Http.Request) (response : Http.Response) : Handled :=
  .just (if r.method = "HEAD" then response.withoutBody else response)

/-- What a route makes of a request that it takes. -/
def serve (s : Server) (p : Http.Peer) (c : Client) (id : String) (r : Http.Request) :
    Route → Handled
  | .health => looked r (health s.registry)
  | .tools => looked r (tools s.registry)
  | .chat =>
    if r.method = "OPTIONS" then .just (.bare 200)
    else
      withBody r fun body =>
        let (response, trace) := Chat.handle s.agent c id body
        ⟨some response, trace, []⟩
  | .generate =>
    withBody r fun _ =>
      let (response, sent) := Passthrough.handle s.generateUrl p r
      ⟨response, .empty, sent⟩

/-- Finds the route of a request. -/
def dispatch (s : Server) (p : Http.Peer) (c : Client) (id : String) (r : Http.Request) : Handled :=
  match s.paths.lookup r.path with
  | none => .just (.bare 404)
  | some route =>
    if route.takes r.method then s.serve p c id r route else .just (.bare 405)

/-- Handles a request of a client, given what the backend does with requests passed through. -/
def handle (s : Server) (p : Http.Peer) (c : Client) (id : String) (r : Http.Request) : Handled :=
  let handled :=
    if s.isOpen && r.method = "OPTIONS" then .just leave else s.dispatch p c id r
  if s.isOpen then { handled with response := handled.response.map opened } else handled

/-- The server after its backend has had some requests. -/
def after (s : Server) (requests : Nat) : Server :=
  { s with agent := { s.agent with backend := s.agent.backend.skip requests } }

/-- Handles requests in order. -/
def handleAll (s : Server) (p : Http.Peer) (id : String) :
    List (Http.Request × Client) → List Handled
  | [] => []
  | (r, c) :: rest =>
    let handled := s.handle p c id r
    handled :: handleAll (s.after handled.trace.requests.length) p id rest

end Server

end ChatAgent
