import ChatAgent.Server.Settings

/-!
Starting the server: the environment is completed by a file, the settings are read from it, and the
port is taken. What goes wrong is told with the step at which it did.
-/

namespace ChatAgent

/-- The environment completed by the variables of a file. One that is set already keeps its value. -/
def Environment.completed (env file : Environment) : Environment := fun name =>
  (env name).or (file name)

/-- The variables that the lines `NAME=value` of a text set, blank characters around the values left
out. Of several lines for one variable the first counts. -/
def Environment.ofText (text : String) : Environment := fun name =>
  let front := (name ++ "=").toList
  ((text.splitOn "\n").find? fun line => front.isPrefixOf line.toList).map fun line =>
    Text.trim (String.ofList (line.toList.drop front.length))

/-- Why the server does not start. -/
inductive StartFailure where
  /-- A setting is not valid. -/
  | settings (f : Failure)
  /-- The port cannot be had. -/
  | port (reason : String)
  deriving DecidableEq, Repr

namespace StartFailure

/-- The step that has failed. -/
def step : StartFailure → String
  | settings _ => "Invalid configuration"
  | port _ => "Failed to bind to address"

/-- Why it has failed. -/
def cause : StartFailure → String
  | settings f => f.message
  | port reason => reason

/-- A text with four spaces in front of every line. -/
def indented (s : String) : String :=
  String.ofList ("    ".toList ++ s.toList.flatMap fun c =>
    if c = '\n' then "\n    ".toList else [c])

/-- What is told of a failure. -/
def report (f : StartFailure) : String :=
  "Error: " ++ f.step ++ "\n\nCaused by:\n" ++ indented f.cause ++ "\n"

end StartFailure

namespace Settings

/-- Why a port cannot be had that somebody else listens on. -/
def portInUse : String := "Address already in use (os error 98)"

/-- The settings with which the server starts. `file` are the variables that a file sets, if there
is one; `refused` says why a port cannot be had. -/
def start (env file : Environment) (refused : Nat → Option String) :
    Except StartFailure Settings :=
  match ofEnvironment (env.completed file) with
  | .error f => .error (.settings f)
  | .ok s =>
    match refused s.port with
    | some reason => .error (.port reason)
    | none => .ok s

end Settings

end ChatAgent
