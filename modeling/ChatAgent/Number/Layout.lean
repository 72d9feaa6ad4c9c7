import ChatAgent.Number.Shortest

/-!
How a float is laid out as text. A layout fixes from which decimal exponents on the digits are
written in their places, how many digits the exponent has otherwise, and which way a tie between
two shortest texts goes.
-/

namespace ChatAgent

/-- The decisions of a text format for floats. -/
structure Layout where
  /-- The least exponent of the first digit that is written positionally. -/
  least : Int
  /-- The least exponent above it that is not. -/
  beyond : Int
  /-- How many digits the exponent has at least. -/
  exponentWidth : Nat
  tie : Tie
  deriving DecidableEq, Repr

namespace Layout

/-- Results of the calculator: positional from 0.0001 up to below 10^16, two digits in the
exponent, and of two shortest texts the greater. -/
def result : Layout := ⟨-4, 16, 2, .up⟩

/-- Numbers in JSON: positional from 0.00001 up to below 10^16, and of two shortest texts the even
one. -/
def json : Layout := ⟨-5, 16, 1, .even⟩

/-- Digits in their places, with a point that has a digit on either side. -/
def positional (digits : List Char) (exponent : Int) : List Char :=
  if exponent < 0 then
    ['0', '.'] ++ List.replicate ((-exponent).toNat - 1) '0' ++ digits
  else
    let before := exponent.toNat + 1
    if digits.length ≤ before then
      digits ++ List.replicate (before - digits.length) '0' ++ ['.', '0']
    else digits.take before ++ '.' :: digits.drop before

/-- One digit before the point, and the exponent with its sign. -/
def scientific (width : Nat) (digits : List Char) (exponent : Int) : List Char :=
  let mantissa :=
    match digits with
    | d :: e :: rest => d :: '.' :: e :: rest
    | ds => ds
  let power := Nat.toDigits 10 exponent.natAbs
  mantissa ++ ['e', if exponent < 0 then '-' else '+'] ++
    List.replicate (width - power.length) '0' ++ power

/-- The text of a positive decimal. -/
def decimal (l : Layout) (d : Decimal) : List Char :=
  if l.least ≤ d.exponent ∧ d.exponent < l.beyond then positional d.digits d.exponent
  else scientific l.exponentWidth d.digits d.exponent

/-- The text of a finite float. -/
def binary (l : Layout) (b : Binary) : List Char :=
  (if b.negative then ['-'] else []) ++
    if b.mantissa = 0 then ['0', '.', '0'] else l.decimal (Shortest.digits l.tie b)

/-- The text of a float. -/
def float (l : Layout) (x : Float) : String :=
  match Binary.ofFloat? x with
  | some b => String.ofList (l.binary b)
  | none => if x.isNaN then "nan" else if x < 0 then "-inf" else "inf"

end Layout

end ChatAgent
