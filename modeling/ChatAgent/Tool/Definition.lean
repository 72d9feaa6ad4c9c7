import ChatAgent.Json.Reader
import ChatAgent.Json.Record

/-!
How a tool is described to the model: its name, what it does, and the parameters it takes.
-/

namespace ChatAgent

/-- One parameter of a tool. -/
structure Property where
  /-- The JSON type of the parameter. -/
  kind : String
  description : String
  deriving DecidableEq

namespace Property

/-- A parameter that takes a string. -/
def string (description : String) : Property := ⟨"string", description⟩

def toJson (p : Property) : Json :=
  .object [("type", .string p.kind), ("description", .string p.description)]

def read : Json.Reader Property := fun n d => do
  let g ← Json.Given.read ["type", "description"] n d
  let kind ← g.required "type" .string
  let description ← g.required "description" .string
  pure ⟨kind, description⟩

end Property

/-- The parameters of a tool. -/
structure Parameters where
  kind : String
  required : List String
  /-- In ascending order of the names, each once. -/
  properties : List (String × Property)
  deriving DecidableEq

namespace Parameters

/-- No parameters. -/
def none : Parameters := ⟨"object", [], []⟩

/-- One more parameter, which has to be given. -/
def require (p : Parameters) (name : String) (property : Property) : Parameters where
  kind := p.kind
  required := p.required ++ [name]
  properties := Json.insertField name property p.properties

def toJson (p : Parameters) : Json :=
  .object [("type", .string p.kind), ("required", Json.strings p.required),
    ("properties", .object (p.properties.map fun (k, v) => (k, v.toJson)))]

def read : Json.Reader Parameters := fun n d => do
  let g ← Json.Given.read ["type", "required", "properties"] n d
  let kind ← g.required "type" .string
  let required ← g.orElse "required" (.list .string) []
  let properties ← g.orElse "properties" (.table Property.read) []
  pure ⟨kind, required, properties⟩

end Parameters

/-- The description of a tool. -/
structure Definition where
  name : String
  description : String
  parameters : Parameters
  deriving DecidableEq

namespace Definition

def toJson (t : Definition) : Json :=
  .object [("name", .string t.name), ("description", .string t.description),
    ("parameters", t.parameters.toJson)]

def read : Json.Reader Definition := fun n d => do
  let g ← Json.Given.read ["name", "description", "parameters"] n d
  let name ← g.required "name" .string
  let description ← g.required "description" .string
  let parameters ← g.required "parameters" Parameters.read
  pure ⟨name, description, parameters⟩

end Definition

/-- A tool as it is offered to a backend. -/
structure Offer where
  kind : String
  function : Definition
  deriving DecidableEq

namespace Offer

/-- Tools are offered as functions. -/
def ofDefinition (t : Definition) : Offer := ⟨"function", t⟩

def toJson (o : Offer) : Json :=
  .object [("type", .string o.kind), ("function", o.function.toJson)]

def read : Json.Reader Offer := fun n d => do
  let g ← Json.Given.read ["type", "function"] n d
  let kind ← g.required "type" .string
  let function ← g.required "function" Definition.read
  pure ⟨kind, function⟩

end Offer

end ChatAgent
