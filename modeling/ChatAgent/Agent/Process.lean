import ChatAgent.Backend.Request
import ChatAgent.Event
import ChatAgent.Tool.Activity

/-!
Processes: what a run does, told apart from who watches it. A process is a sequence of actions with
an end; a client follows it and decides, by taking events or going away, how far it gets. What
happened is kept in a trace.
-/

namespace ChatAgent

/-- Something that a run does and that others can see. -/
inductive Action where
  /-- Tells the client of an event. -/
  | emit (e : Event)
  /-- Looks whether the client has gone away. -/
  | heed
  /-- Asks the backend for a turn. -/
  | ask (r : BackendRequest)
  /-- A tool takes a step. -/
  | step (s : Step)
  deriving DecidableEq

/-- A sequence of actions and what comes of it. The rest after an action is given on demand, since
a run that nobody follows to its end may be long. -/
inductive Process (α : Type) where
  | done (a : α)
  | fail (f : Failure)
  /-- Waits for ever. -/
  | hang
  | act (a : Action) (next : Unit → Process α)

namespace Process

/-- Goes on with what came of a process. -/
def bind : Process α → (α → Process β) → Process β
  | done a, k => k a
  | fail f, _ => fail f
  | hang, _ => hang
  | act a next, k => act a fun u => bind (next u) k

instance : Monad Process where
  pure := done
  bind := bind

/-- One action. -/
def perform (a : Action) : Process Unit := act a fun _ => done ()

/-- Tells the client of events, one after the other. -/
def emitAll : List Event → Process Unit
  | [] => done ()
  | e :: es => act (.emit e) fun _ => emitAll es

/-- Makes a failure something that came of the process. -/
def attempt : Process α → Process (Except Failure α)
  | done a => done (.ok a)
  | fail f => done (.error f)
  | hang => hang
  | act a next => act a fun u => attempt (next u)

/-- Takes the steps of tools. Where a tool pauses, the run looks whether the client has gone. -/
def takeSteps : List Step → Process Unit
  | [] => done ()
  | .pause :: steps => act .heed fun _ => takeSteps steps
  | s :: steps => act (.step s) fun _ => takeSteps steps

/-- Carries an activity out. -/
def ofActivity (a : Activity α) : Process α :=
  (takeSteps a.steps).bind fun _ =>
    match a.result with
    | some x => done x
    | none => hang

end Process

/-! ## Following a process -/

/-- What has happened in a run. -/
structure Trace where
  /-- The events that the client has taken. -/
  events : List Event
  /-- What the backend was asked. -/
  requests : List BackendRequest
  /-- The steps of tools. -/
  steps : List Step
  deriving DecidableEq

namespace Trace

/-- Nothing has happened. -/
def empty : Trace := ⟨[], [], []⟩

/-- The marks that tools have left. -/
def notes (t : Trace) : List String :=
  t.steps.filterMap fun
    | .note line => some line
    | _ => none

end Trace

/-- A client, by how long it stays. -/
structure Client where
  /-- It goes away once it has taken so many events. -/
  leavesAfter : Option Nat
  /-- It takes no more than so many events, though it does not go away. -/
  refusesAfter : Option Nat
  /-- Whether a run can tell that it has gone away before the next event. -/
  audible : Bool
  deriving DecidableEq, Repr

namespace Client

/-- A client that takes everything. -/
def patient : Client := ⟨none, none, true⟩

/-- Whether the client has gone away. -/
def gone (c : Client) (t : Trace) : Bool :=
  t.steps.contains .dismiss || c.leavesAfter.any (· ≤ t.events.length)

/-- Whether the run can tell that the client has gone away. -/
def heard (c : Client) (t : Trace) : Bool := c.audible && c.gone t

/-- Whether the client takes another event. -/
def takes (c : Client) (t : Trace) : Bool :=
  !c.gone t && !c.refusesAfter.any (· ≤ t.events.length)

end Client

/-- How a run ends. -/
inductive Ending (α : Type) where
  | finished (a : α)
  | failed (f : Failure)
  /-- It never does. -/
  | hung
  deriving DecidableEq

/-- Follows a process after a trace. A client that is gone cancels it: when it is offered an event,
and, if that can be told, wherever the process looks. -/
def Process.follow (c : Client) : Process α → Trace → Trace × Ending α
  | done a, t => (t, .finished a)
  | fail f, t => (t, .failed f)
  | hang, t => (t, if c.heard t then .failed .cancelled else .hung)
  | act (.emit e) next, t =>
    if c.takes t then follow c (next ()) { t with events := t.events ++ [e] }
    else (t, .failed .cancelled)
  | act .heed next, t => if c.heard t then (t, .failed .cancelled) else follow c (next ()) t
  | act (.ask r) next, t => follow c (next ()) { t with requests := t.requests ++ [r] }
  | act (.step s) next, t => follow c (next ()) { t with steps := t.steps ++ [s] }

end ChatAgent
