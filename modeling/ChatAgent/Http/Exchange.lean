import ChatAgent.Http.Status
import ChatAgent.Http.Url

/-!
Requests and responses, and how a call to a peer turns out. A peer is known by what it does with a
request: it cannot be reached, it hangs up, it says nothing, or it responds. Redirects are not
followed: a response that points elsewhere is given to the caller like any other.
-/

namespace ChatAgent.Http

/-- Header fields in order, the names in small letters. -/
abbrev Headers := List (String × String)

/-- A request as its receiver gets it. -/
structure Request where
  method : String
  /-- The path, and the query if there is one. -/
  target : String
  headers : Headers
  body : List UInt8
  deriving DecidableEq, Repr

/-- How a body ends. -/
inductive BodyEnd where
  /-- It is complete. -/
  | whole
  /-- It breaks off. -/
  | broken
  /-- Nothing more arrives though it is not complete. -/
  | stalled
  deriving DecidableEq, Repr

/-- A response. -/
structure Response where
  status : Nat
  headers : Headers
  body : List UInt8
  ending : BodyEnd
  deriving DecidableEq, Repr

namespace Response

/-- A response without a body. -/
def bare (status : Nat) : Response := ⟨status, [], [], .whole⟩

/-- A response with a body of some type. -/
def ofBody (status : Nat) (contentType : String) (body : List UInt8) : Response :=
  ⟨status, [("content-type", contentType)], body, .whole⟩

/-- The value of a header field. -/
def header? (r : Response) (name : String) : Option String := r.headers.lookup name

/-- The response without its body. -/
def withoutBody (r : Response) : Response := { r with body := [], ending := .whole }

/-- How long a piece of a body is at most. -/
def pieceSize : Nat := 65536

/-- Cuts bytes into pieces, of which there are at most `fuel`. -/
def cutPieces : (fuel : Nat) → List UInt8 → List (List UInt8)
  | 0, _ => []
  | _, [] => []
  | fuel + 1, b :: bs =>
    (b :: bs).take pieceSize :: cutPieces fuel ((b :: bs).drop pieceSize)

/-- The pieces in which the body arrives. -/
def pieces (r : Response) : List (List UInt8) := cutPieces (r.body.length / pieceSize + 1) r.body

theorem flatten_cutPieces {fuel : Nat} {bs : List UInt8} (h : bs.length ≤ fuel * pieceSize) :
    (cutPieces fuel bs).flatten = bs := by
  induction fuel generalizing bs with
  | zero =>
    rw [Nat.zero_mul, Nat.le_zero, List.length_eq_zero_iff] at h
    rw [h]
    rfl
  | succ fuel ih =>
    cases bs with
    | nil => rfl
    | cons b bs =>
      have hrest : ((b :: bs).drop pieceSize).length ≤ fuel * pieceSize := by
        rw [List.length_drop, Nat.sub_le_iff_le_add, ← Nat.succ_mul]
        exact h
      rw [cutPieces, List.flatten_cons, ih hrest, List.take_append_drop]

theorem flatten_pieces (r : Response) : r.pieces.flatten = r.body := by
  refine flatten_cutPieces ?_
  rw [Nat.add_mul, Nat.one_mul]
  exact Nat.le_of_lt (Nat.lt_div_mul_add (by decide))

end Response

namespace Request

/-- The value of a header field. -/
def header? (r : Request) (name : String) : Option String := r.headers.lookup name

/-- What follows the scheme and its slashes, if a target begins with them. -/
def afterScheme? : List Char → Option (List Char)
  | ':' :: '/' :: '/' :: cs => some cs
  | c :: cs => if c.isAlphanum then afterScheme? cs else none
  | [] => none

/-- The target without the scheme and the host that may stand before its path. -/
def withoutHost (target : List Char) : List Char :=
  match afterScheme? target with
  | some cs =>
    match cs.dropWhile fun c => c ≠ '/' && c ≠ '?' with
    | '/' :: rest => '/' :: rest
    | rest => '/' :: rest
  | none => target

/-- The path of the target. -/
def path (r : Request) : String :=
  String.ofList ((withoutHost r.target.toList).takeWhile fun c => c ≠ '?' && c ≠ '#')

end Request

/-! ## Calls -/

/-- What a peer does with a request. -/
inductive Peer where
  /-- It cannot be reached. -/
  | refuses
  /-- It takes the request and hangs up without a response. -/
  | closes
  /-- It takes the request and never responds. -/
  | silent
  | responds (r : Response)
  deriving DecidableEq, Repr

/-- A request that is to be sent. -/
structure Call where
  method : String
  address : String
  headers : Headers
  body : List UInt8
  deriving DecidableEq, Repr

/-- What comes of a call. -/
inductive Contact where
  /-- There is no response and there will be none, for whatever reason but that time has run out.
  Somebody may have taken the request all the same. -/
  | failed (reason : String)
  /-- Time has run out before there was a response. -/
  | silence
  | response (r : Response)
  deriving DecidableEq, Repr

/-- What is said of a body that breaks off or is not what it should be. -/
def badBody : String := "error decoding response body"

/-- How the network delivers responses. -/
structure Transport where
  /-- The pieces in which a body arrives. -/
  pieces : Response → List (List UInt8)
  flatten_pieces : ∀ r, (pieces r).flatten = r.body
  /-- What is said of a body that breaks off. -/
  broken : Response → String

namespace Transport

/-- Pieces of the same length, and one text for all that is wrong with a body. -/
def usual : Transport where
  pieces := Response.pieces
  flatten_pieces := Response.flatten_pieces
  broken := fun _ => badBody

end Transport

namespace Call

/-- A call that posts a text as JSON. -/
def postJson (address text : String) : Call :=
  ⟨"POST", address, [("content-type", "application/json")], Text.bytes text⟩

/-- The response as the caller gets it. There is no body after the method `HEAD`. -/
def received (c : Call) (r : Response) : Response :=
  if c.method = "HEAD" || hasNoBody r.status then r.withoutBody else r

/-- Calls a peer: what comes of it, and the requests that the peer has got. The peer at the address
is the only one that is called. -/
def place (c : Call) (p : Peer) : Contact × List Request :=
  match Url.ofText? c.address with
  | none => (.failed "builder error", [])
  | some url =>
    let request : Request := ⟨c.method, url.target, c.headers, c.body⟩
    let failed : Contact := .failed ("error sending request for url (" ++ url.text ++ ")")
    match p with
    | .refuses => (failed, [])
    | .closes => (failed, [request])
    | .silent => (.silence, [request])
    | .responds r => (.response (c.received r), [request])

end Call

end ChatAgent.Http
