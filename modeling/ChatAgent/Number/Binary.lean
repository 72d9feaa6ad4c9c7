/-!
Finite floating-point numbers as exact values: a sign, a mantissa and a power of two. Rounding to
an integer and the remainder of a division are computed on these in exact arithmetic; only the
result is turned into a float again.
-/

namespace ChatAgent

/-- The number `mantissa * 2 ^ exponent`, or its negative. Zero has a sign too. -/
structure Binary where
  negative : Bool
  mantissa : Nat
  exponent : Int
  deriving DecidableEq, Repr

namespace Binary

/-- The value of a float; infinities and NaN have none. -/
def ofFloat? (x : Float) : Option Binary :=
  match x.toModel.unpack with
  | .finite .positive m e _ => some ⟨false, m, e⟩
  | .finite .negative m e _ => some ⟨true, m, e⟩
  | .zero .positive => some ⟨false, 0, 0⟩
  | .zero .negative => some ⟨true, 0, 0⟩
  | .infinity _ | .notANumber => none

/-- The nearest float, of two the even one. -/
def toFloat (b : Binary) : Float :=
  let sign : Float.Model.UnpackedFloat.Sign := if b.negative then .negative else .positive
  if b.mantissa = 0 then .ofModel (.pack (.zero sign))
  else .ofModel (.pack (.round .binary64 sign b.mantissa b.exponent))

/-- How many binary places stand behind the point. -/
def places (b : Binary) : Nat := (-b.exponent).toNat

/-- The magnitude without what stands behind the point. -/
def whole (b : Binary) : Nat :=
  if b.exponent < 0 then b.mantissa / Nat.pow 2 b.places
  else b.mantissa * Nat.pow 2 b.exponent.toNat

/-- What stands behind the point, in units of the last place. -/
def rest (b : Binary) : Nat :=
  if b.exponent < 0 then b.mantissa % Nat.pow 2 b.places else 0

/-- The integer with this sign and magnitude. -/
def signed (negative : Bool) (n : Nat) : Int := if negative then -(n : Int) else n

/-- The magnitude of the greatest integer that is not above the number. -/
def floorMagnitude (b : Binary) : Nat :=
  if b.negative ∧ b.rest ≠ 0 then b.whole + 1 else b.whole

/-- The magnitude of the least integer that is not below the number. -/
def ceilMagnitude (b : Binary) : Nat :=
  if ¬ b.negative ∧ b.rest ≠ 0 then b.whole + 1 else b.whole

/-- The magnitude of the nearest integer, of two the even one. -/
def evenMagnitude (b : Binary) : Nat :=
  let unit := Nat.pow 2 b.places
  if unit < 2 * b.rest ∨ (unit = 2 * b.rest ∧ b.whole % 2 = 1) then b.whole + 1 else b.whole

/-- The integer value, rounded toward zero. -/
def truncate (b : Binary) : Int := signed b.negative b.whole

end Binary

/-! ## On floats -/

namespace Float64

/-- Rounds to an integer; a zero keeps the sign of what was rounded. -/
def roundWith (magnitude : Binary → Nat) (x : Float) : Float :=
  match Binary.ofFloat? x with
  | some b => if b.rest = 0 then x else Binary.toFloat ⟨b.negative, magnitude b, 0⟩
  | none => x

/-- The greatest integer that is not above. -/
def floor : Float → Float := roundWith Binary.floorMagnitude

/-- The least integer that is not below. -/
def ceil : Float → Float := roundWith Binary.ceilMagnitude

/-- The nearest integer, of two the even one. -/
def roundEven : Float → Float := roundWith Binary.evenMagnitude

/-- Whether the float is a finite integer. -/
def isIntegral (x : Float) : Bool :=
  match Binary.ofFloat? x with
  | some b => b.rest == 0
  | none => false

/-- Not a number. -/
def nan : Float := 0.0 / 0.0

/-- What is left of `x` after taking away `y` a whole number of times, exactly; it has the sign
of `x`. -/
def remainder (x y : Float) : Float :=
  match Binary.ofFloat? x, Binary.ofFloat? y with
  | some a, some b =>
    if b.mantissa = 0 then nan
    else
      let unit := min a.exponent b.exponent
      let m := a.mantissa * Nat.pow 2 (a.exponent - unit).toNat
      let n := b.mantissa * Nat.pow 2 (b.exponent - unit).toNat
      Binary.toFloat ⟨a.negative, m % n, unit⟩
  | some _, none => if y.isNaN then nan else x
  | none, _ => nan

/-- The power `10 ^ n` by repeated squaring, each product rounded; the reciprocal of it for a
negative exponent. -/
def powerOfTen (n : Int) : Float :=
  let rec square (factor result : Float) (n : Nat) : Float :=
    if h : n = 0 then result
    else square (factor * factor) (if n % 2 = 1 then result * factor else result) (n / 2)
  termination_by n
  if n < 0 then 1.0 / square 10.0 1.0 n.natAbs else square 10.0 1.0 n.toNat

end Float64

end ChatAgent
