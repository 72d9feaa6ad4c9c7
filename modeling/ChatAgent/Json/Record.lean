import ChatAgent.Json.Basic

/-!
Writing records: objects whose fields stand in a fixed order, some of them only when they have a
value.
-/

namespace ChatAgent.Json

/-- A field that is left out when it has no value. -/
def present (name : String) (value : Option Json) : List (String × Json) :=
  match value with
  | some v => [(name, v)]
  | none => []

/-- A value, or `null` for none. -/
def orNull : Option Json → Json
  | some v => v
  | none => .null

/-- An array of strings. -/
def strings (ss : List String) : Json := .array (ss.map .string)

end ChatAgent.Json
