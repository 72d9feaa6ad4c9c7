import ChatAgent.Event
import ChatAgent.Event.Channel

/-!
Recorders: a client that keeps all events it is told of, until it is closed.
-/

namespace ChatAgent

/-- The events of which a client has been told. -/
structure Recorder where
  events : List Event
  closed : Bool
  deriving DecidableEq

namespace Recorder

/-- Nothing has been recorded. -/
def empty : Recorder := ⟨[], false⟩

/-- Offers an event. -/
def emit (r : Recorder) (e : Event) : Acceptance × Recorder :=
  if r.closed then (.cancelled, r) else (.accepted, { r with events := r.events ++ [e] })

/-- Offers events in order, up to the first that is not accepted. -/
def emitAll (r : Recorder) : List Event → Acceptance × Recorder
  | [] => (.accepted, r)
  | e :: es =>
    match r.emit e with
    | (.accepted, r) => r.emitAll es
    | (a, r) => (a, r)

/-- No more events are taken. -/
def close (r : Recorder) : Recorder := { r with closed := true }

/-- The kinds of the events. -/
def kinds (r : Recorder) : List String := r.events.map Event.kind

end Recorder

end ChatAgent
