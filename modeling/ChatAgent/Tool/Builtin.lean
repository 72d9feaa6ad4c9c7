import ChatAgent.Calculator.Evaluation
import ChatAgent.Service.Execution
import ChatAgent.Service.Interpreter
import ChatAgent.Tool.Registry

/-!
The two tools that come with the agent. Both hand their calls to the execution service. When the
request fails before there is a response, `calculate` evaluates the expression itself, and `python`
runs the code with a local interpreter if it has been given one. An answer of the service always
stands.
-/

namespace ChatAgent.Tool

/-- How delegated calls turn out. -/
abbrev Delegate := Delegation → Except ServiceFault String

/-- Hands a call over, and does something else when the request fails before there is a
response. -/
def delegating (send : Delegate) (call : Delegation) (instead : Activity Outcome) :
    Activity Outcome :=
  let steps : List Step := [.delegate call, .pause]
  match send call with
  | .ok result => ⟨steps, some (.success result)⟩
  | .error (.unreachable _) => ⟨steps ++ instead.steps, instead.result⟩
  | .error (.invalidResponse reason) => ⟨steps, some (.internalError reason none)⟩
  | .error fault => ⟨steps, some (.toolError fault.message)⟩

/-- Does something with the string that the arguments hold under a key, which has to be there. -/
def withString (key : String) (arguments : Json) (use : String → Activity Outcome) :
    Activity Outcome :=
  match (arguments.field? key).bind Json.string? with
  | some s => use s
  | none => .finished (.toolError (key ++ " must be a string"))

/-- The call of a tool that takes one string. -/
def delegation (tool key value : String) : Delegation :=
  ⟨tool, .object [(key, .string value)]⟩

/-! ## Expressions -/

/-- Evaluates an expression without the service. -/
def evaluateHere (expression : String) : Outcome :=
  match Calculator.evaluate expression with
  | .ok n => .success (Calculator.display n)
  | .error e => .toolError ("execution error: " ++ e.message)

/-- Evaluates mathematical expressions. -/
def calculate (send : Delegate) : Tool where
  definition :=
    { name := "calculate"
      description :=
        "Evaluate mathematical expressions accurately. Use this for ANY math calculations " ++
          "including arithmetic, algebra, trigonometry, logarithms, square roots, etc. Always " ++
          "use this tool instead of calculating yourself."
      parameters :=
        Parameters.none.require "expression" (.string
          ("Mathematical expression to evaluate, e.g., 'sqrt(189)', '2+2*3', " ++
            "'sin(3.14159/2)', 'log(100, 10)'")) }
  run arguments :=
    withString "expression" arguments fun expression =>
      delegating send (delegation "calculate" "expression" expression)
        (.finished (evaluateHere expression))

/-! ## Programs -/

/-- Runs code without the service, if that is allowed. -/
def runHere (interpreter : Option Interpreter) (code : String) : Activity Outcome :=
  match interpreter with
  | some i => ⟨[.interpret code, .pause], some (i.outcome code)⟩
  | none =>
    .finished
      (.toolError "execution service unreachable and local code execution is disabled")

/-- Runs Python code. -/
def python (send : Delegate) (interpreter : Option Interpreter) : Tool where
  definition :=
    { name := "python"
      description :=
        "Execute Python code and return the output. Use for complex calculations, data " ++
          "processing, or any task that benefits from code execution. The code runs in a " ++
          "sandboxed environment with common libraries available (math, numpy, etc)."
      parameters :=
        Parameters.none.require "code"
          (.string "Python code to execute. Use print() to output results.") }
  run arguments :=
    withString "code" arguments fun code =>
      delegating send (delegation "python" "code" code) (runHere interpreter code)

/-! ## Both -/

/-- How the two tools are set up. -/
structure BuiltinConfig where
  serviceUrl : String
  /-- How long the service and a local interpreter may take. -/
  limit : Duration
  /-- Whether code may be run locally, with no protection. -/
  allowsLocalCode : Bool
  /-- The program that runs code locally. -/
  interpreter : String
  deriving DecidableEq, Repr

namespace BuiltinConfig

/-- The set-up for a service, with code run there only. -/
def ofUrl (serviceUrl : String) : BuiltinConfig :=
  ⟨serviceUrl, .ofSeconds 30, false, "python3"⟩

def service (c : BuiltinConfig) : Service := .ofUrl c.serviceUrl c.limit

/-- The local interpreter, if there is to be one; `programs` says what programs do with texts. -/
def interpreter? (c : BuiltinConfig) (programs : String → String → ProgramRun) :
    Option Interpreter :=
  if c.allowsLocalCode then some ⟨programs c.interpreter, c.limit⟩ else none

end BuiltinConfig

/-- The two tools, given what becomes of requests and what programs do with texts. -/
def builtins (c : BuiltinConfig) (network : Http.Call → Http.Contact)
    (programs : String → String → ProgramRun) : List Tool :=
  let send := c.service.ask network
  [calculate send, python send (c.interpreter? programs)]

end ChatAgent.Tool
