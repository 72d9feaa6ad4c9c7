import ChatAgent.Json.Token

/-!
Documents: what a JSON text says before anybody asks for its meaning. The fields of an object
stand in the order of the text, repeated names included. Tokens are read by a machine with a stack
of the arrays and objects that are still open, so a document may nest to any depth.
-/

namespace ChatAgent.Json

/-- A JSON text taken apart. -/
inductive Document where
  | null
  | bool (b : Bool)
  | number (n : Option Number)
  | string (s : Option String)
  | array (items : List Document)
  | object (fields : List (Option String × Document))

namespace Document

instance : Inhabited Document := ⟨.null⟩

/-- An array or object that is still open, what it holds so far in reverse. -/
inductive Frame where
  | array (items : List Document)
  /-- An object that waits for the value of the field `key`. -/
  | object (fields : List (Option String × Document)) (key : Option String)

/-- What may come next. -/
inductive Expecting where
  /-- A value. -/
  | value
  /-- The first item of an array, or its end. -/
  | item
  /-- A comma or the end, in an array that holds these items in reverse. -/
  | afterItem (items : List Document)
  /-- The first name in an object, or its end. -/
  | name
  /-- A name in an object that holds these fields in reverse. -/
  | nextName (fields : List (Option String × Document))
  /-- The colon after the name `key`. -/
  | colon (fields : List (Option String × Document)) (key : Option String)
  /-- A comma or the end, in an object that holds these fields in reverse. -/
  | afterField (fields : List (Option String × Document))
  /-- Nothing: the document is complete. -/
  | nothing (d : Document)

/-- What is expected after a value, and which arrays and objects remain open. -/
def close (d : Document) : List Frame → Expecting × List Frame
  | [] => (.nothing d, [])
  | .array items :: open_ => (.afterItem (d :: items), open_)
  | .object fields key :: open_ => (.afterField ((key, d) :: fields), open_)

/-- Takes a token where a value is expected. -/
def takeValue (t : Token) (stack : List Frame) : Option (Expecting × List Frame) :=
  match t with
  | .null => some (close .null stack)
  | .bool b => some (close (.bool b) stack)
  | .number n => some (close (.number n) stack)
  | .string s => some (close (.string s) stack)
  | .openArray => some (.item, stack)
  | .openObject => some (.name, stack)
  | _ => none

/-- Takes one token. -/
def take (e : Expecting) (stack : List Frame) (t : Token) : Option (Expecting × List Frame) :=
  match e, t with
  | .value, t => takeValue t stack
  | .item, .closeArray => some (close (.array []) stack)
  | .item, t => takeValue t (.array [] :: stack)
  | .afterItem items, .comma => some (.value, .array items :: stack)
  | .afterItem items, .closeArray => some (close (.array items.reverse) stack)
  | .name, .closeObject => some (close (.object []) stack)
  | .name, .string s => some (.colon [] s, stack)
  | .nextName fields, .string s => some (.colon fields s, stack)
  | .colon fields key, .colon => some (.value, .object fields key :: stack)
  | .afterField fields, .comma => some (.nextName fields, stack)
  | .afterField fields, .closeObject => some (close (.object fields.reverse) stack)
  | _, _ => none

/-- Takes all tokens; they have to make up one document. -/
def takeAll (e : Expecting) (stack : List Frame) : List Token → Option Document
  | [] =>
    match e with
    | .nothing d => some d
    | _ => none
  | t :: ts =>
    match take e stack t with
    | some (e, stack) => takeAll e stack ts
    | none => none

/-- The document that tokens make up. -/
def ofTokens? (ts : List Token) : Option Document := takeAll .value [] ts

/-- The document that a text says. -/
def ofText? (s : String) : Option Document := (Token.ofText? s).bind ofTokens?

/-- The document that a text, given as bytes, says. -/
def ofBytes? (bs : List UInt8) : Option Document := (Token.ofBytes? bs).bind ofTokens?

end Document

end ChatAgent.Json
