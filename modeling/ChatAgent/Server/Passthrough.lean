import ChatAgent.Http.Exchange
import ChatAgent.Text.Blank

/-!
Passing requests through to the backend, with no agent in between. Of a request its method, body and
content type are passed on; of the response its status, body and content type come back.
-/

namespace ChatAgent.Passthrough

/-- Where requests are passed on to. -/
def url (backend : String) : String := Text.trimSlashes backend ++ "/api/generate"

/-- The content type in some header fields, as a header field. -/
def contentType (hs : Http.Headers) : Http.Headers :=
  match hs.lookup "content-type" with
  | some t => [("content-type", t)]
  | none => []

/-- The request that is passed on. -/
def call (url : String) (r : Http.Request) : Http.Call :=
  ⟨r.method, url, contentType r.headers, r.body⟩

/-- The response to what has come of the request that was passed on, if it is ever known. -/
def returned : Http.Contact → Option Http.Response
  | .failed reason =>
    some (.ofBody 502 "text/plain; charset=utf-8" (Text.bytes ("backend unreachable: " ++ reason)))
  | .silence => none
  | .response r => some ⟨r.status, contentType r.headers, r.body, r.ending⟩

/-- The response to a request that is passed on, and the requests that the backend gets. -/
def handle (url : String) (p : Http.Peer) (r : Http.Request) :
    Option Http.Response × List Http.Request :=
  let (contact, sent) := (call url r).place p
  (returned contact, sent)

end ChatAgent.Passthrough
