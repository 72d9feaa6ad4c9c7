import ChatAgent.Number.Binary

/-!
The fewest decimal digits that read back. A float stands for all reals that are rounded to it. For
one, two, … seventeen digits the two neighbours of its value on that decimal grid are tried; the
first grid with a neighbour that is rounded to the float wins, of two the nearer one.
-/

namespace ChatAgent

/-- The positive number `significand * 10 ^ power`. -/
structure Decimal where
  significand : Nat
  power : Int
  deriving DecidableEq, Repr

/-- Which neighbour is taken when both are equally near. -/
inductive Tie where
  | up
  | even
  deriving DecidableEq, Repr

namespace Decimal

/-- The digits of the significand. -/
def digits (d : Decimal) : List Char := Nat.toDigits 10 d.significand

/-- The exponent of the first digit. -/
def exponent (d : Decimal) : Int := d.power + d.digits.length - 1

/-- The same number without zeros at the end of the significand. -/
def trimmed (d : Decimal) : Decimal :=
  if h : d.significand ≠ 0 ∧ d.significand % 10 = 0 then
    trimmed ⟨d.significand / 10, d.power + 1⟩
  else d
termination_by d.significand
decreasing_by exact Nat.div_lt_self (Nat.pos_of_ne_zero h.1) (by decide)

end Decimal

namespace Shortest

/-- The reals that are rounded to a float, in quarters of its last place: its value, the bounds on
either side, and whether the bounds belong to it. -/
structure Interval where
  value : Nat
  low : Nat
  high : Nat
  closed : Bool
  /-- The power of two that a quarter stands for. -/
  quarter : Int
  deriving Repr

/-- Below a power of two the floats lie twice as dense, but not below the least one. -/
def Interval.ofBinary (b : Binary) : Interval where
  value := 4 * b.mantissa
  low := 4 * b.mantissa - (if b.mantissa = Nat.pow 2 52 ∧ -1074 < b.exponent then 1 else 2)
  high := 4 * b.mantissa + 2
  closed := b.mantissa % 2 == 0
  quarter := b.exponent - 2

/-- What `10 ^ power` is multiplied by to be compared with `quarterUnit`. -/
def gridUnit (power quarter : Int) : Nat := Nat.pow 10 power.toNat * Nat.pow 2 (-quarter).toNat

/-- What `2 ^ quarter` is multiplied by to be compared with `gridUnit`. -/
def quarterUnit (power quarter : Int) : Nat := Nat.pow 2 quarter.toNat * Nat.pow 10 (-power).toNat

/-- Whether the multiple `n` of `10 ^ power` is rounded to the float. -/
def Interval.contains (i : Interval) (power : Int) (n : Nat) : Bool :=
  let point := n * gridUnit power i.quarter
  let low := i.low * quarterUnit power i.quarter
  let high := i.high * quarterUnit power i.quarter
  if i.closed then low ≤ point && point ≤ high else low < point && point < high

/-- The neighbour on the grid of `10 ^ power` that is rounded to the float, if there is one. -/
def Interval.neighbour? (i : Interval) (tie : Tie) (power : Int) : Option Nat :=
  let grid := gridUnit power i.quarter
  let scaled := i.value * quarterUnit power i.quarter
  let below := scaled / grid
  let above := below + 1
  match i.contains power below, i.contains power above with
  | true, false => some below
  | false, true => some above
  | false, false => none
  | true, true =>
    match compare (2 * (scaled % grid)) grid with
    | .lt => some below
    | .gt => some above
    | .eq =>
      match tie with
      | .up => some above
      | .even => if below % 2 = 0 then some below else some above

/-- The first of the grids from `10 ^ power` downward that has a neighbour. -/
def Interval.search (i : Interval) (tie : Tie) : Nat → Int → Decimal
  | 0, power => ⟨i.value * quarterUnit power i.quarter / gridUnit power i.quarter, power⟩
  | n + 1, power =>
    match i.neighbour? tie power with
    | some k => ⟨k, power⟩
    | none => i.search tie n (power - 1)

/-- The exponent of the first decimal digit of a positive number. -/
def leadingExponent (b : Binary) : Int :=
  if b.whole ≠ 0 then (Nat.toDigits 10 b.whole).length - 1
  else
    -- The least power of ten that brings the number to one or more.
    let inverse := (Nat.pow 2 b.places + b.mantissa - 1) / b.mantissa
    Int.negOfNat (Nat.toDigits 10 (inverse - 1)).length

/-- The fewest digits that read back as the float, which must not be zero. -/
def digits (tie : Tie) (b : Binary) : Decimal :=
  ((Interval.ofBinary b).search tie 17 (leadingExponent b)).trimmed

end Shortest

end ChatAgent
