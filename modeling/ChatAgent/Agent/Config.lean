import ChatAgent.Failure
import ChatAgent.Json.Reader
import ChatAgent.Json.Record
import ChatAgent.Text.Blank

/-!
How a run is configured.
-/

namespace ChatAgent

/-- How the tool calls of one turn are run. -/
inductive Dispatch where
  /-- One after the other. -/
  | sequential
  /-- All at once. -/
  | concurrent
  deriving DecidableEq, Repr

namespace Dispatch

def name : Dispatch → String
  | sequential => "sequential"
  | concurrent => "concurrent"

def all : List Dispatch := [sequential, concurrent]

def toJson (d : Dispatch) : Json := .string d.name

def read : Json.Reader Dispatch := .word (all.map fun d => (d.name, d))

/-- The dispatch that a setting names; white space around it and the case of ASCII letters do not
matter. -/
def ofSetting (s : String) : Except Failure Dispatch :=
  let word := Text.lowercase (Text.trim s)
  match all.find? (·.name = word) with
  | some d => .ok d
  | none => .error (.configuration ("unknown tool dispatch mode: " ++ word))

end Dispatch

/-- The configuration of runs. -/
structure AgentConfig where
  /-- Put in front of a conversation that has no message of the system. -/
  systemPrompt : String
  /-- How many turns a run has at most. -/
  maxIterations : Nat
  dispatch : Dispatch
  deriving DecidableEq

namespace AgentConfig

/-- The system prompt that is used unless another is configured. -/
def defaultPrompt : String :=
  "\n".intercalate [
    "You are Heyo, a helpful AI assistant. You have access to tools that you MUST use when " ++
      "appropriate:",
    "",
    "1. **calculate**: Use this for ANY mathematical calculation. NEVER calculate math " ++
      "yourself - always use this tool.",
    "2. **python**: Use this to execute Python code for complex tasks or computations.",
    "",
    "IMPORTANT: When you receive a tool result, you MUST use the EXACT value returned. Do NOT " ++
      "round, approximate, or modify the result. Simply report the exact number from the tool.",
    "",
    "Example:",
    "- Tool returns: 13.74772708486752",
    "- You say: \"The square root of 189 is 13.74772708486752\"",
    "- Do NOT say: \"approximately 13.75\" or round the number"]

def default : AgentConfig := ⟨defaultPrompt, 10, .sequential⟩

def toJson (c : AgentConfig) : Json :=
  .object [("system_prompt", .string c.systemPrompt), ("max_iterations", .int c.maxIterations),
    ("tool_dispatch", c.dispatch.toJson)]

def read : Json.Reader AgentConfig := fun n d => do
  let g ← Json.Given.read ["system_prompt", "max_iterations", "tool_dispatch"] n d
  let systemPrompt ← g.required "system_prompt" .string
  let maxIterations ← g.orElse "max_iterations" .word64 default.maxIterations
  let dispatch ← g.orElse "tool_dispatch" Dispatch.read default.dispatch
  pure ⟨systemPrompt, maxIterations, dispatch⟩

end AgentConfig

end ChatAgent
