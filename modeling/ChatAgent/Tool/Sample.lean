import ChatAgent.Tool.Registry

/-!
Two small tools, to try a run out: one that says its message again, and one that always fails.
-/

namespace ChatAgent.Tool

/-- Says its argument `message` again, or nothing. -/
def echo : Tool where
  definition :=
    { name := "echo"
      description := "Echo back the provided message. Useful for testing tool execution."
      parameters := Parameters.none.require "message" (.string "The message to echo back") }
  run arguments :=
    .finished (.success (((arguments.field? "message").bind Json.string?).getD ""))

/-- Always fails, with the given outcome. -/
def failing (outcome : Outcome) : Tool where
  definition :=
    { name := "failing_tool"
      description := "A tool that always fails (for testing error handling)"
      parameters := Parameters.none }
  run _ := .finished outcome

/-- What `failing` says unless it is told otherwise. -/
def failingMessage : String := "Tool execution failed"

end ChatAgent.Tool
