import ChatAgent.Agent.Config
import ChatAgent.Backend.Remote
import ChatAgent.Text.Quoted
import ChatAgent.Tool.Builtin

/-!
Settings of the server, read from environment variables. A variable that is blank counts as not
set; one that is not valid keeps the server from starting, and of several such the first one, in the
order in which they are read, is reported.
-/

namespace ChatAgent

/-- Environment variables. -/
abbrev Environment := String → Option String

/-- The settings of the server. -/
structure Settings where
  port : Nat
  /-- Where the backend is. -/
  backendUrl : String
  agent : AgentConfig
  tools : Tool.BuiltinConfig
  deriving DecidableEq

namespace Settings

def default : Settings where
  port := 8080
  backendUrl := RemoteBackend.defaultUrl
  agent := .default
  tools := .ofUrl "http://localhost:8002"

/-! ## Values -/

/-- The value of a variable that is set and not blank. -/
def value? (env : Environment) (name : String) : Option String :=
  (env name).filter (!Text.isBlankText ·)

/-- The number that ASCII digits say; a plus sign may stand before them. -/
def readDigits? (s : String) : Option Nat :=
  let digits :=
    match s.toList with
    | '+' :: cs => cs
    | cs => cs
  if digits.isEmpty || !digits.all Char.isDigit then none
  else some (digits.foldl (fun n c => n * 10 + (c.toNat - '0'.toNat)) 0)

/-- The number that a value says, blank characters around it left out, if it is in a range. -/
def readNumber? (low high : Nat) (raw : String) : Option Nat :=
  (readDigits? (Text.trim raw)).filter fun n => low ≤ n && n ≤ high

/-- Whether a value says yes. -/
def isYes (raw : String) : Bool := ["true", "1"].contains (Text.lowercase (Text.trim raw))

/-- A variable that is read by `parse`, or a value in its place when it is not set. -/
def readOr (env : Environment) (name : String) (absent : α)
    (parse : String → Except Failure α) : Except Failure α :=
  match value? env name with
  | some raw => parse raw
  | none => .ok absent

/-- A number in a range; `kind` says in an error what it should have been. -/
def number (name kind : String) (low high : Nat) (raw : String) : Except Failure Nat :=
  match readNumber? low high raw with
  | some n => .ok n
  | none => .error (.configuration (name ++ " must be " ++ kind ++ ", got " ++ Text.quoted raw))

/-! ## Variables -/

def readPort (env : Environment) : Except Failure Nat :=
  readOr env "PORT" default.port (number "PORT" "a port number" 0 65535)

def readMaxIterations (env : Environment) : Except Failure Nat :=
  readOr env "MAX_TOOL_ITERATIONS" default.agent.maxIterations
    (number "MAX_TOOL_ITERATIONS" "a positive integer" 1 word64Max)

def readDispatch (env : Environment) : Except Failure Dispatch :=
  readOr env "TOOL_DISPATCH" default.agent.dispatch Dispatch.ofSetting

/-- The set-up of the two tools, in which nothing can be wrong. -/
def readTools (env : Environment) : Tool.BuiltinConfig where
  serviceUrl := (value? env "PYTHON_EXECUTOR_URL").getD default.tools.serviceUrl
  limit := default.tools.limit
  allowsLocalCode := (value? env "ALLOW_INSECURE_CODE_FALLBACK").any isYes
  interpreter := (value? env "PYTHON_BIN").getD default.tools.interpreter

/-- The names of the variables. -/
def variableNames : List String :=
  ["PORT", "MAX_TOOL_ITERATIONS", "TOOL_DISPATCH", "OLLAMA_URL", "PYTHON_EXECUTOR_URL",
    "ALLOW_INSECURE_CODE_FALLBACK", "PYTHON_BIN"]

/-- The settings that environment variables make. -/
def ofEnvironment (env : Environment) : Except Failure Settings := do
  let port ← readPort env
  let maxIterations ← readMaxIterations env
  let dispatch ← readDispatch env
  .ok
    { port := port
      backendUrl := (value? env "OLLAMA_URL").getD default.backendUrl
      agent := ⟨default.agent.systemPrompt, maxIterations, dispatch⟩
      tools := readTools env }

end Settings

end ChatAgent
