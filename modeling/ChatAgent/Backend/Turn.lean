import ChatAgent.Backend.Request
import ChatAgent.Backend.Stream

/-!
Turns of a backend: what it answers to one request. A backend is the answers to all requests it
gets, in order; one kind simply has them written down.
-/

namespace ChatAgent

/-- The answer to one request. -/
inductive Turn where
  /-- The call itself fails. -/
  | refused (f : Failure)
  /-- Chunks arrive, possibly with failures between them. In the end the stream is over, or nothing
  more arrives though it is not. -/
  | streamed (items : List StreamItem) (hangs : Bool)

/-- A backend: its answer to a request, given how many it has had before. -/
abbrev Backend := Nat → BackendRequest → Turn

namespace Turn

/-- Chunks, and then the end. -/
def chunks (cs : List Chunk) : Turn := .streamed (cs.map .ok) false

/-- The backend cannot be reached. -/
def unavailable (reason : String) : Turn := .refused (.unavailable reason)

/-- The backend answers that it failed. -/
def status (answer : String) : Turn := .refused (.backend answer)

/-- Chunks, and then the stream breaks. -/
def breaksAfter (cs : List Chunk) (reason : String) : Turn :=
  .streamed (cs.map .ok ++ [.error (.stream reason)]) false

/-- The call is taken and nothing ever arrives. -/
def silent : Turn := .streamed [] true

end Turn

namespace Backend

/-- Answers with the turns of a script, and after them with one turn over and over, if there is
one. -/
def scripted (turns : List Turn) (after : Option Turn) : Backend := fun n _ =>
  match turns[n]? with
  | some turn => turn
  | none => after.getD (.status "script exhausted")

/-- The backend after `k` requests. -/
def skip (b : Backend) (k : Nat) : Backend := fun n r => b (k + n) r

end Backend

end ChatAgent
