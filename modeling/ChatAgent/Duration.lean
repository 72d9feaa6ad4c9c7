/-!
Spans of time, and how they are written: in the largest unit in which they are at least one, with
as many places as they need.
-/

namespace ChatAgent

/-- A span of time. -/
structure Duration where
  nanos : Nat
  deriving DecidableEq, Repr

namespace Duration

def ofMillis (n : Nat) : Duration := ⟨n * 1000000⟩

def ofSeconds (n : Nat) : Duration := ⟨n * 1000000000⟩

/-- How many whole seconds there are. -/
def seconds (d : Duration) : Nat := d.nanos / 1000000000

/-- The digits of `n`, with zeros in front to make them `places`. -/
def padded (places n : Nat) : List Char :=
  let digits := Nat.toDigits 10 n
  List.replicate (places - digits.length) '0' ++ digits

/-- The digits of a fraction of `10 ^ places` after its point, without zeros at the end. -/
def fraction (places n : Nat) : List Char :=
  ((padded places n).reverse.dropWhile (· == '0')).reverse

/-- So many nanoseconds in a unit of `10 ^ places` of them. -/
def inUnit (places : Nat) (unit : String) (nanos : Nat) : String :=
  let rest := nanos % Nat.pow 10 places
  let point := if rest = 0 then [] else '.' :: fraction places rest
  String.ofList (Nat.toDigits 10 (nanos / Nat.pow 10 places) ++ point) ++ unit

/-- The text of a span of time. -/
def text (d : Duration) : String :=
  if 1000000000 ≤ d.nanos then inUnit 9 "s" d.nanos
  else if 1000000 ≤ d.nanos then inUnit 6 "ms" d.nanos
  else if 1000 ≤ d.nanos then inUnit 3 "µs" d.nanos
  else inUnit 0 "ns" d.nanos

end Duration

end ChatAgent
