import ChatAgent.Calculator.Token

/-!
Arithmetic on numbers. On two integers the result is the exact integer, or an overflow if that does
not fit in 64 bits; as soon as one of them is a float the other becomes one too.
-/

namespace ChatAgent.Calculator

/-- The result of a computation. -/
abbrev Result := Except Fault Number

/-- An exact integer, if it fits in 64 bits. -/
def exact (n : Int) : Result := if FitsInt64 n then .ok (.int n) else .error .overflow

/-- A float, whatever it is. -/
def float (x : Float) : Result := .ok (.float x)

/-- A float that has to be finite. -/
def finite (x : Float) : Result :=
  if x.isInf then .error .range else if x.isNaN then .error .domain else .ok (.float x)

/-- Whether the number is zero, of either sign. -/
def isZero : Number → Bool
  | .int n => n == 0
  | .float x => x == 0.0

/-- The integer that a rounded float is. -/
def toInteger (x : Float) : Result :=
  match Binary.ofFloat? x with
  | some b => exact b.truncate
  | none => .error (.type (.notFinite x))

def add : Number → Number → Result
  | .int a, .int b => exact (a + b)
  | a, b => float (a.toFloat + b.toFloat)

def sub : Number → Number → Result
  | .int a, .int b => exact (a - b)
  | a, b => float (a.toFloat - b.toFloat)

def mul : Number → Number → Result
  | .int a, .int b => exact (a * b)
  | a, b => float (a.toFloat * b.toFloat)

def neg : Number → Result
  | .int a => exact (-a)
  | .float x => float (-x)

/-- The quotient as a float. -/
def divide (a b : Number) : Result :=
  if isZero b then .error .divisionByZero else float (a.toFloat / b.toFloat)

/-- The quotient, rounded down. -/
def floorDivide (a b : Number) : Result :=
  if isZero b then .error .divisionByZero
  else
    match a, b with
    | .int a, .int b => exact (Int.fdiv a b)
    | a, b => float (Float64.floor (a.toFloat / b.toFloat))

/-- What a float leaves over, with the sign of the divisor. -/
def floorRemainder (x y : Float) : Float :=
  let r := Float64.remainder x y
  if r != 0.0 && ((r < 0.0 : Bool) != (y < 0.0 : Bool)) then r + y else r

/-- What is left over by `floorDivide`. The least integer modulo -1 counts as an overflow, as its
quotient does. -/
def modulo (a b : Number) : Result :=
  if isZero b then .error .divisionByZero
  else
    match a, b with
    | .int a, .int b =>
      if a = int64Min ∧ b = -1 then .error .overflow else exact (Int.fmod a b)
    | a, b => float (floorRemainder a.toFloat b.toFloat)

/-- The greatest exponent of an integer power. -/
def exponentMax : Int := 4294967295

/-- An integer to a power. From the exponent 64 on only 0, 1 and -1 have a power that fits. -/
def integerPower (b : Int) (e : Nat) : Result :=
  if e < 64 then exact (Int.pow b e)
  else if b = 0 then .ok (.int 0)
  else if b = 1 then .ok (.int 1)
  else if b = -1 then .ok (.int (if e % 2 = 0 then 1 else -1))
  else .error .overflow

/-- A float to a power; it has to be real and finite. -/
def floatPower (b e : Float) : Result :=
  if b == 0.0 && e < 0.0 then .error (.type .zeroPower)
  else if b < 0.0 && !Float64.isIntegral e then .error .domain
  else finite (Float.pow b e)

def power : Number → Number → Result
  | .int b, .int e =>
    if 0 ≤ e then
      if e ≤ exponentMax then integerPower b e.toNat else .error .overflow
    else floatPower (Float.ofInt b) (Float.ofInt e)
  | b, e => floatPower b.toFloat e.toFloat

end ChatAgent.Calculator
