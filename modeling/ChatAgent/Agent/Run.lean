import ChatAgent.Agent.Config
import ChatAgent.Agent.Process
import ChatAgent.Agent.Request
import ChatAgent.Backend.Reply
import ChatAgent.Backend.Turn
import ChatAgent.Tool.Registry

/-!
Runs of the agent. In each turn the model is asked for an answer, which is passed on as it streams
in. If the answer asks for tools, they are run, their results join the conversation, and the next
turn begins; otherwise the run is complete. The number of turns is capped.
-/

namespace ChatAgent

/-- How a run came to its end. -/
inductive Stop where
  /-- A turn asked for no tools. -/
  | completed
  /-- The cap was reached. -/
  | maxIterations
  deriving DecidableEq, Repr

/-- What comes of a run. -/
structure RunOutcome where
  /-- The whole conversation. -/
  messages : Conversation
  /-- How many turns there were. -/
  iterations : Nat
  /-- The text of the last turn, if it has any. -/
  finalResponse : Option String
  stop : Stop
  deriving DecidableEq

/-- All that a run needs besides the request. -/
structure Agent where
  config : AgentConfig
  backend : Backend
  /-- The tools that the backend is offered. -/
  offers : List Offer
  /-- What runs the tools of each turn. -/
  executor : Nat → Executor

namespace Agent

/-- An agent with the tools of a registry. -/
def ofRegistry (config : AgentConfig) (backend : Backend) (r : Registry) : Agent where
  config := config
  backend := backend
  offers := r.offers
  executor := fun _ => .ofRegistry r config.dispatch

/-- Takes in what streams in after `g`, and passes the text on. Nothing that comes after the mark of
the end is looked at. -/
def gather (hangs : Bool) : Gathering → List StreamItem → Process Reply
  | g, [] => if hangs then .hang else .done (.ofGathering g)
  | _, .error f :: _ => .fail f
  | g, .ok c :: items => do
    let g := g.push c
    match Gathering.delta? c with
    | some delta => Process.perform (.emit (.content delta))
    | none => .done ()
    if g.done then .done (.ofGathering g) else gather hangs g items

/-- One turn of the model. -/
def turn (request : BackendRequest) (answer : Turn) : Process Reply := do
  Process.perform .heed
  Process.perform (.ask request)
  match answer with
  | .refused f => .fail f
  | .streamed items hangs => gather hangs .empty items

/-- Reports a failure of the backend to the client. If the client does not take it, the run counts
as cancelled. -/
def report (f : Failure) : Process α := do
  Process.emitAll [.error f.message, .done none]
  .fail f

/-- Runs the tools that a turn asks for. They are announced before any of them begins, and their
results follow when all have finished. -/
def useTools (e : Executor) (calls : List ToolCall) : Process (List ToolResult) := do
  Process.emitAll (calls.map Event.ofCall)
  Process.perform .heed
  let results ← Process.ofActivity (e.executeAll calls)
  Process.emitAll (results.map Event.ofResult)
  .done results

/-- The turns of a run, of which there are at most `left` more after `count`. -/
def turns (a : Agent) (model : String) : (left count : Nat) → Conversation → Process RunOutcome
  | 0, count, messages => do
    Process.perform (.emit (.done (some .maxIterations)))
    .done ⟨messages, count, none, .maxIterations⟩
  | left + 1, count, messages => do
    let request : BackendRequest := ⟨model, messages, a.offers⟩
    match ← (turn request (a.backend count request)).attempt with
    | .error .cancelled => .fail .cancelled
    | .error f => report f
    | .ok reply =>
      match reply.toolCalls with
      | [] => do
        Process.perform (.emit (.done none))
        .done ⟨messages ++ [.assistant reply.content], count + 1,
          if reply.content.isEmpty then none else some reply.content, .completed⟩
      | calls => do
        let results ← useTools (a.executor count) calls
        turns a model left (count + 1)
          (messages ++ .asking reply.content calls :: results.map Message.ofResult)

/-- A run of the agent. -/
def run (a : Agent) (r : ChatRequest) : Process RunOutcome :=
  if r.messages.isEmpty then .fail .noMessages
  else
    turns a r.model a.config.maxIterations 0 (Conversation.withSystem a.config.systemPrompt r.messages)

end Agent

end ChatAgent
