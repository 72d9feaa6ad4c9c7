import ChatAgent.Duration

/-!
Why a call that is handed to the execution service brings no result.
-/

namespace ChatAgent

/-- The causes for which a delegated call brings no result. -/
inductive ServiceFault where
  /-- The request has failed before there was a response. The service may have taken it all the
  same. -/
  | unreachable (reason : String)
  /-- The service has taken the call and not answered in time. -/
  | timedOut (limit : Duration)
  /-- The answer is no result of a call. -/
  | invalidResponse (reason : String)
  /-- The service says that the call failed. -/
  | failed (text : String)
  deriving DecidableEq, Repr

namespace ServiceFault

/-- The text that tells of a fault. -/
def message : ServiceFault → String
  | unreachable reason => "execution service unreachable: " ++ reason
  | timedOut limit => "execution service timed out after " ++ limit.text
  | invalidResponse reason => "invalid execution service response: " ++ reason
  | failed text => text

/-- Whether something else may be tried in place of the call. -/
def isUnreachable : ServiceFault → Bool
  | unreachable _ => true
  | _ => false

end ServiceFault

end ChatAgent
