import ChatAgent.Agent.Config
import ChatAgent.Text.Quoted
import ChatAgent.Tool.Activity
import ChatAgent.Tool.Definition
import ChatAgent.Tool.Outcome

/-!
The registry of tools. Each name has one tool, the one registered last; tools are listed in
ascending order of their names.
-/

namespace ChatAgent

/-- A tool: how it is described, and what it does with arguments. -/
structure Tool where
  definition : Definition
  run : Json → Activity Outcome

namespace Tool

def name (t : Tool) : String := t.definition.name

end Tool

/-- Tools by name. -/
structure Registry where
  /-- In ascending order of the names, each once. -/
  tools : List (String × Tool)

namespace Registry

def empty : Registry := ⟨[]⟩

/-- Registers a tool in place of one of the same name. -/
def register (r : Registry) (t : Tool) : Registry := ⟨Json.insertField t.name t r.tools⟩

/-- The registry of several tools, registered in order. -/
def ofList (ts : List Tool) : Registry := ts.foldl register empty

def get? (r : Registry) (name : String) : Option Tool := r.tools.lookup name

def contains (r : Registry) (name : String) : Bool := (r.get? name).isSome

def size (r : Registry) : Nat := r.tools.length

/-- The descriptions of all tools. -/
def list (r : Registry) : List Definition := r.tools.map fun (_, t) => t.definition

/-- All tools as they are offered to a backend. -/
def offers (r : Registry) : List Offer := r.list.map .ofDefinition

/-! ## Running tools -/

/-- Runs the tool that a call names. -/
def execute (r : Registry) (call : ToolCall) : Activity ToolResult :=
  match r.get? call.name with
  | some t => ((t.run call.arguments).map (·.toResult call.id)).execution call
  | none => .finished (.failure call.id ("unknown tool: " ++ call.name))

/-- Shows a registry by its names. -/
def describe (r : Registry) : String :=
  "ToolRegistry \x7b tools: " ++ Text.quotedList (r.list.map (·.name)) ++ " \x7d"

end Registry

/-- How the tool calls of a turn are run. -/
structure Executor where
  execute : ToolCall → Activity ToolResult
  dispatch : Dispatch

namespace Executor

/-- Runs tools of a registry. -/
def ofRegistry (r : Registry) (dispatch : Dispatch) : Executor := ⟨r.execute, dispatch⟩

/-- Runs the calls of a turn; the results are in the order of the calls. -/
def executeAll (e : Executor) (calls : List ToolCall) : Activity (List ToolResult) :=
  match e.dispatch with
  | .sequential => .inOrder (calls.map e.execute)
  | .concurrent => .together (calls.map e.execute)

/-- Shows an executor by its registry. -/
def describe (r : Registry) (dispatch : Dispatch) : String :=
  let mode :=
    match dispatch with
    | .sequential => "Sequential"
    | .concurrent => "Concurrent"
  "RegistryToolExecutor \x7b registry: " ++ r.describe ++ ", dispatch: " ++ mode ++ " \x7d"

end Executor

end ChatAgent
