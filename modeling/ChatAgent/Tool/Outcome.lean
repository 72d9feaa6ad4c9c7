import ChatAgent.Tool.Call

/-!
Outcomes: what comes of running a tool. The model is told of a success and of an error of the tool;
of an internal error it learns only that there was one.
-/

namespace ChatAgent

/-- What comes of running a tool. -/
inductive Outcome where
  | success (text : String)
  /-- An error that the model may see. -/
  | toolError (message : String)
  /-- An error whose details stay inside. -/
  | internalError (message : String) (source : Option String)
  deriving DecidableEq, Repr

namespace Outcome

def isSuccess : Outcome → Bool
  | success _ => true
  | _ => false

/-- What the model is told of any internal error. -/
def internalErrorNotice : String := "An internal error occurred while executing the tool"

/-- The outcome as the answer to a call. -/
def toResult (o : Outcome) (callId : String) : ToolResult :=
  match o with
  | success text => .success callId text
  | toolError message => .failure callId message
  | internalError _ _ => .failure callId internalErrorNotice

end Outcome

end ChatAgent
