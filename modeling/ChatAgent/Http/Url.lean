import ChatAgent.Text.Utf8

/-!
URLs of HTTP peers. An address is brought into its normal form before a request goes out: the path
is never empty and has no dot segments, and characters that may not stand in it are written by their
bytes (`%` and two hexadecimal digits).
-/

namespace ChatAgent.Http

/-- Where a request goes. -/
structure Url where
  scheme : String
  host : String
  /-- None when it is the usual one for the scheme. -/
  port : Option Nat
  path : String
  query : Option String
  fragment : Option String
  deriving DecidableEq, Repr

namespace Url

/-! ## Percent encoding -/

/-- A byte by its digits. -/
def percent (b : UInt8) : List Char :=
  let digit (n : Nat) := (Nat.digitChar n).toUpper
  ['%', digit (b.toNat / 16), digit (b.toNat % 16)]

/-- A character, by its bytes if it is a control, is not ASCII or is one of `reserved`. -/
def encodeChar (reserved : List Char) (c : Char) : List Char :=
  if c.toNat ≤ 0x20 || 0x7f ≤ c.toNat || reserved.contains c then
    (Text.encode [c]).flatMap percent
  else [c]

/-- What may not stand in a path. -/
def reservedInPath : List Char := ['"', '<', '>', '`', '#', '?', '{', '}']

/-- What may not stand in a query. -/
def reservedInQuery : List Char := ['"', '<', '>', '#', '\x27']

/-- What may not stand in a fragment. -/
def reservedInFragment : List Char := ['"', '<', '>', '`']

def encodeAll (reserved cs : List Char) : String :=
  String.ofList (cs.flatMap (encodeChar reserved))

/-! ## Paths -/

/-- Both slashes separate the segments of a path. -/
def isSlash (c : Char) : Bool := c == '/' || c == '\\'

/-- The segments between slashes. -/
def segments : List Char → List (List Char)
  | [] => [[]]
  | c :: cs =>
    if isSlash c then [] :: segments cs
    else
      match segments cs with
      | s :: rest => (c :: s) :: rest
      | [] => [[c]]

/-- A segment, with dots in place of their percent encodings. -/
def undot : List Char → List Char
  | '%' :: '2' :: c :: cs => if c == 'e' || c == 'E' then '.' :: undot cs else '%' :: '2' :: c :: cs
  | c :: cs => c :: undot cs
  | [] => []

/-- Resolves the dot segments: `.` stays where it is, `..` goes one segment back. A path that ends
with one of them ends with a slash. The segments so far are given in reverse. -/
def resolveDots (done : List (List Char)) : List (List Char) → List (List Char)
  | [] => done.reverse
  | s :: rest =>
    let stay (done : List (List Char)) := if rest.isEmpty then [] :: done else done
    if undot s = ['.'] then resolveDots (stay done) rest
    else if undot s = ['.', '.'] then resolveDots (stay done.tail) rest
    else resolveDots (s :: done) rest

/-- The path that some characters after the host mean. -/
def normalPath (cs : List Char) : String :=
  let named := if isSlash (cs.headD 'x') then cs.tail else cs
  "/" ++ "/".intercalate ((resolveDots [] (segments named)).map (encodeAll reservedInPath))

/-! ## Reading -/

/-- What stands before and after the first character with a property; the character is left out. -/
def cutAt (p : Char → Bool) (cs : List Char) : List Char × Option (List Char) :=
  match cs.dropWhile (!p ·) with
  | [] => (cs, none)
  | _ :: rest => (cs.takeWhile (!p ·), some rest)

/-- The port that is meant when none is written. -/
def usualPort (scheme : String) : Nat := if scheme = "https" then 443 else 80

/-- What may not stand in the name of a host. -/
def reservedInHost : List Char :=
  ['#', '%', '/', ':', '<', '>', '?', '@', '[', '\\', ']', '^', '|']

/-- Whether a character may stand in the name of a host. -/
def isHostPart (c : Char) : Bool :=
  0x20 < c.toNat && c.toNat < 0x7f && !reservedInHost.contains c

/-- The port that some digits say; no digits say no port. -/
def readPort? (digits : List Char) : Option (Option Nat) :=
  if digits.isEmpty then some none
  else if digits.all Char.isDigit then
    let n := digits.foldl (fun n c => n * 10 + (c.toNat - '0'.toNat)) 0
    if n ≤ 65535 then some (some n) else none
  else none

/-- The URL of a scheme and of what stands after its slashes. -/
def ofParts? (scheme : String) (cs : List Char) : Option Url := do
  let (cs, fragment) := cutAt (· == '#') cs
  let (cs, query) := cutAt (· == '?') cs
  let authority := cs.takeWhile (!isSlash ·)
  let (host, digits) := cutAt (· == ':') authority
  let port ← readPort? (digits.getD [])
  if host.isEmpty || !host.all isHostPart then none
  else
    some
      { scheme := scheme
        host := String.ofList (host.map Char.toLower)
        port := port.filter (· ≠ usualPort scheme)
        path := normalPath (cs.dropWhile (!isSlash ·))
        query := query.map (encodeAll reservedInQuery)
        fragment := fragment.map (encodeAll reservedInFragment) }

/-- Whether a character is dropped at both ends of an address. -/
def isPadding (c : Char) : Bool := c.toNat ≤ 0x20

/-- Whether a character is dropped wherever it stands in an address. -/
def isDropped (c : Char) : Bool := c == '\t' || c == '\n' || c == '\r'

/-- The URL that an address means. -/
def ofText? (address : String) : Option Url :=
  let cs := (address.toList.dropWhile isPadding).reverse.dropWhile isPadding
  let cs := cs.reverse.filter (!isDropped ·)
  let (scheme, rest) := cutAt (· == ':') cs
  match String.ofList (scheme.map Char.toLower), rest with
  | "http", some rest => ofParts? "http" (rest.dropWhile isSlash)
  | "https", some rest => ofParts? "https" (rest.dropWhile isSlash)
  | _, _ => none

/-! ## Writing -/

/-- What a request names as its target. -/
def target (u : Url) : String :=
  match u.query with
  | some q => u.path ++ "?" ++ q
  | none => u.path

/-- The whole address. -/
def text (u : Url) : String :=
  let port :=
    match u.port with
    | some n => ":" ++ toString n
    | none => ""
  let fragment :=
    match u.fragment with
    | some f => "#" ++ f
    | none => ""
  u.scheme ++ "://" ++ u.host ++ port ++ u.target ++ fragment

end Url

end ChatAgent.Http
