import ChatAgent.Json.Document

/-!
Readers: how a document is understood as a value of some type. A reader is told how many levels of
arrays and objects it may still enter, so that deep documents are refused; what it does not look at
is not counted.

A record is given as an object, where fields of other names are ignored and a field must not be
given twice, or as an array of its fields in order, where fields may be missing at the end.
-/

namespace ChatAgent.Json

/-- Understands a document, with so many levels of nesting left. -/
abbrev Reader (α : Type) := Nat → Document → Option α

namespace Reader

/-- How deep a document may nest. -/
def maxLevels : Nat := 127

def bool : Reader Bool
  | _, .bool b => some b
  | _, _ => none

def string : Reader String
  | _, .string s => s
  | _, _ => none

/-- An integer of 64 bits without a sign, written as one. -/
def word64 : Reader Nat
  | _, .number (some (.int n)) => if 0 ≤ n ∧ n ≤ word64Max then some n.toNat else none
  | _, _ => none

/-- A value, or `null` for none. -/
def optional (r : Reader α) : Reader (Option α)
  | _, .null => some none
  | n, d => (r n d).map some

def list (r : Reader α) : Reader (List α)
  | n + 1, .array ds => ds.mapM (r n)
  | _, _ => none

/-- The fields of an object, each read by `r`. -/
def fields (r : Document → Option α) (given : List (Option String × Document)) :
    Option (List (String × α)) :=
  given.mapM fun (k, d) =>
    match k, r d with
    | some k, some v => some (k, v)
    | _, _ => none

/-- An object as a table in ascending order; of fields with one name the last counts. -/
def table (r : Reader α) : Reader (List (String × α))
  | n + 1, .object given => (fields (r n) given).map sortFields
  | _, _ => none

/-- Any value. -/
def json : Reader Json
  | _, .null => some .null
  | _, .bool b => some (.bool b)
  | _, .number n => n.map .number
  | _, .string s => s.map .string
  | n + 1, .array ds => (ds.mapM (json n)).map .array
  | n + 1, .object given => (fields (json n) given).map fun fs => .object (sortFields fs)
  | 0, _ => none

/-- One of several words, each standing for a value: the word itself, or an object that has it as
its only name and `null` under it. -/
def word (words : List (String × α)) : Reader α
  | _, .string (some s) => words.lookup s
  | _ + 1, .object [(some s, .null)] => words.lookup s
  | _, _ => none

end Reader

/-! ## Records -/

/-- The fields of a record as a document gives them. -/
structure Given where
  /-- How many levels the fields may enter. -/
  levels : Nat
  values : List (String × Document)

namespace Given

/-- The fields of a record that are given by name. -/
def named (names : List String) : List (Option String × Document) →
    Option (List (String × Document))
  | [] => some []
  | (none, _) :: _ => none
  | (some k, d) :: rest =>
    match named names rest with
    | none => none
    | some values =>
      if k ∈ names then
        if (values.lookup k).isSome then none else some ((k, d) :: values)
      else some values

/-- The fields of a record that has these names. -/
def read (names : List String) : Reader Given
  | n + 1, .object given => (named names given).map fun values => ⟨n, values⟩
  | n + 1, .array ds => if ds.length ≤ names.length then some ⟨n, names.zip ds⟩ else none
  | _, _ => none

/-- A field that has to be given. -/
def required (g : Given) (name : String) (r : Reader α) : Option α :=
  match g.values.lookup name with
  | some d => r g.levels d
  | none => none

/-- A field that has a value when it is not given. -/
def orElse (g : Given) (name : String) (r : Reader α) (absent : α) : Option α :=
  match g.values.lookup name with
  | some d => r g.levels d
  | none => some absent

/-- A field that may be missing or `null`. -/
def optional (g : Given) (name : String) (r : Reader α) : Option (Option α) :=
  g.orElse name (Reader.optional r) none

end Given

/-! ## Texts -/

/-- The value that a text says. -/
def readText? (r : Reader α) (s : String) : Option α :=
  (Document.ofText? s).bind (r Reader.maxLevels)

/-- The value that a text, given as bytes, says. -/
def readBytes? (r : Reader α) (bs : List UInt8) : Option α :=
  (Document.ofBytes? bs).bind (r Reader.maxLevels)

/-- The JSON value that a text says. -/
def ofText? (s : String) : Option Json := readText? Reader.json s

end ChatAgent.Json
