/-!
Why a chat run fails. A tool that fails is no failure of the run: the model is told and goes on.
-/

namespace ChatAgent

/-- The causes for which a run, or the set-up before it, fails. -/
inductive Failure where
  /-- The backend cannot be reached. -/
  | unavailable (reason : String)
  /-- The backend answers that it failed. -/
  | backend (answer : String)
  /-- The backend's answer breaks off. -/
  | stream (reason : String)
  /-- A setting is not valid. -/
  | configuration (reason : String)
  /-- The conversation is empty. -/
  | noMessages
  /-- The client went away. -/
  | cancelled
  | internal (reason : String)
  deriving DecidableEq, Repr

namespace Failure

/-- The text that tells of a failure. -/
def message : Failure → String
  | unavailable reason => "backend unavailable: " ++ reason
  | backend answer => "backend error: " ++ answer
  | stream reason => "backend stream error: " ++ reason
  | configuration reason => "Configuration error: " ++ reason
  | noMessages => "No messages to process"
  | cancelled => "Loop cancelled"
  | internal reason => "Internal error: " ++ reason

end Failure

end ChatAgent
