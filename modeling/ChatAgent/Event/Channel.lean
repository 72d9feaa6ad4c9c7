import ChatAgent.Event

/-!
Channels: events on their way from a run to a reader that takes them when it likes. A channel holds
a bounded number of events; a run that offers one more has to wait. When the reader goes away, the
events that it has not read are gone, and nothing is accepted any more.
-/

namespace ChatAgent

/-- Events that have been accepted and not been read. -/
structure Channel where
  /-- How many events are held at most. -/
  capacity : Nat
  /-- The events, the oldest first. -/
  queued : List Event
  /-- Whether the reader is still there. -/
  hasReader : Bool
  deriving DecidableEq

/-- What becomes of events that are offered. -/
inductive Acceptance where
  | accepted
  /-- The rest has to wait until there is room. -/
  | waiting
  /-- Nobody reads any more. -/
  | cancelled
  deriving DecidableEq, Repr

/-- What a reader finds. -/
inductive Reading where
  | event (e : Event)
  /-- No event has been accepted that has not been read. -/
  | nothing
  /-- The reader has gone away. -/
  | gone
  deriving DecidableEq

namespace Channel

/-- A new channel. One without room cannot be had, for nothing would ever pass through it. -/
def new? (capacity : Nat) : Option Channel :=
  if capacity = 0 then none else some ⟨capacity, [], true⟩

/-- Whether the reader has gone away. -/
def closed (c : Channel) : Bool := !c.hasReader

/-- Offers an event. -/
def emit (c : Channel) (e : Event) : Acceptance × Channel :=
  if c.closed then (.cancelled, c)
  else if c.queued.length < c.capacity then (.accepted, { c with queued := c.queued ++ [e] })
  else (.waiting, c)

/-- Offers events in order, up to the first that is not accepted. -/
def emitAll (c : Channel) : List Event → Acceptance × Channel
  | [] => (.accepted, c)
  | e :: es =>
    match c.emit e with
    | (.accepted, c) => c.emitAll es
    | (.waiting, c) => (.waiting, c)
    | (.cancelled, c) => (.cancelled, c)

/-- Reads the oldest event. -/
def receive (c : Channel) : Reading × Channel :=
  if c.closed then (.gone, c)
  else
    match c.queued with
    | e :: rest => (.event e, { c with queued := rest })
    | [] => (.nothing, c)

/-- The reader goes away. -/
def leave (c : Channel) : Channel := { c with queued := [], hasReader := false }

end Channel

end ChatAgent
