import ChatAgent.Calculator.Arithmetic
import ChatAgent.Text.Blank

/-!
The names that expressions may use: four constants and thirty functions. Nothing else can be
reached from an expression. The case of letters does not matter.
-/

namespace ChatAgent.Calculator

/-- A constant. -/
inductive Constant where
  | pi
  | e
  | tau
  | inf
  deriving DecidableEq, Repr

namespace Constant

def all : List Constant := [pi, e, tau, inf]

def name : Constant → String
  | pi => "pi"
  | e => "e"
  | tau => "tau"
  | inf => "inf"

def value : Constant → Float
  | pi => 3.141592653589793
  | e => 2.718281828459045
  | tau => 6.283185307179586
  | inf => 1.0 / 0.0

end Constant

/-- A function. -/
inductive Function where
  | abs | round | min | max | sum | pow
  | sin | cos | tan | asin | acos | atan | atan2
  | sinh | cosh | tanh | asinh | acosh | atanh
  | exp | log | log10 | log2 | sqrt
  | ceil | floor | factorial | gcd | degrees | radians
  deriving DecidableEq, Repr

namespace Function

def all : List Function :=
  [abs, round, min, max, sum, pow, sin, cos, tan, asin, acos, atan, atan2, sinh, cosh, tanh, asinh,
    acosh, atanh, exp, log, log10, log2, sqrt, ceil, floor, factorial, gcd, degrees, radians]

def name : Function → String
  | abs => "abs"
  | round => "round"
  | min => "min"
  | max => "max"
  | sum => "sum"
  | pow => "pow"
  | sin => "sin"
  | cos => "cos"
  | tan => "tan"
  | asin => "asin"
  | acos => "acos"
  | atan => "atan"
  | atan2 => "atan2"
  | sinh => "sinh"
  | cosh => "cosh"
  | tanh => "tanh"
  | asinh => "asinh"
  | acosh => "acosh"
  | atanh => "atanh"
  | exp => "exp"
  | log => "log"
  | log10 => "log10"
  | log2 => "log2"
  | sqrt => "sqrt"
  | ceil => "ceil"
  | floor => "floor"
  | factorial => "factorial"
  | gcd => "gcd"
  | degrees => "degrees"
  | radians => "radians"

end Function

/-- All names, the constants first. -/
def allowedNames : List String := Constant.all.map (·.name) ++ Function.all.map (·.name)

/-- The constant of a name in small letters. -/
def constant? (lowered : String) : Option Constant := Constant.all.find? (·.name = lowered)

/-- The function of a name in small letters. -/
def function? (lowered : String) : Option Function := Function.all.find? (·.name = lowered)

/-- The value of a name that is not called. -/
def valueOf (name : String) : Result :=
  let lowered := Text.lowercase name
  match constant? lowered with
  | some c => float c.value
  | none =>
    match function? lowered with
    | some _ => .error (.notConstant name)
    | none => .error (.unknownVariable name)

/-! ## The functions -/

/-- The one argument of a function. -/
def one (f : Function) : List Number → Except Fault Number
  | [x] => .ok x
  | _ => .error (.arity f.name .one)

/-- The two arguments of a function. -/
def two (f : Function) : List Number → Except Fault (Number × Number)
  | [x, y] => .ok (x, y)
  | _ => .error (.arity f.name .two)

/-- The integer that an argument has to be. -/
def integer (f : Function) : Number → Except Fault Int
  | .int n => .ok n
  | .float _ => .error (.type (.notInteger f.name))

/-- A real function of one argument. No value where the argument has one is a fault of the domain,
an infinity where the argument is finite one of the range. -/
def real (f : Function) (g : Float → Float) (args : List Number) : Result := do
  let x := (← one f args).toFloat
  let y := g x
  if y.isNaN && !x.isNaN then .error .domain
  else if y.isInf && x.isFinite then .error .range
  else float y

/-- A real function that is defined on the positive numbers. -/
def ofPositive (f : Function) (g : Float → Float) (args : List Number) : Result := do
  let x := (← one f args).toFloat
  if x ≤ 0.0 then .error .domain else float (g x)

/-- An integer as it is, a float rounded by `g` to one. -/
def rounded (f : Function) (g : Float → Float) (args : List Number) : Result := do
  match ← one f args with
  | .int n => .ok (.int n)
  | .float x => toInteger (g x)

def absolute (args : List Number) : Result := do
  match ← one .abs args with
  | .int n => exact n.natAbs
  | .float x => float x.abs

/-- A float rounded to a number of decimal places, negative for tens. -/
def roundTo (x : Float) (places : Int) : Float :=
  let scale := Float64.powerOfTen places
  Float64.roundEven (x * scale) / scale

/-- Rounds to an integer, or to so many decimal places; then the kind of number stays. -/
def round : List Number → Result
  | [.int n] => .ok (.int n)
  | [.float x] => toInteger (Float64.roundEven x)
  | [x, places] => do
    let places ← integer .round places
    match x with
    | .int n =>
      if 0 ≤ places then .ok (.int n)
      else if -2147483648 ≤ places then toInteger (roundTo (Float.ofInt n) places)
      else .error .overflow
    | .float x =>
      if -2147483648 ≤ places ∧ places < 2147483648 then float (roundTo x places)
      else .error .overflow
  | _ => .error (.arity Function.round.name .oneOrTwo)

/-- The first argument that none of the later ones is better than; arguments are compared as
floats. -/
def best (f : Function) (better : Float → Float → Bool) : List Number → Result
  | [] => .error (.arity f.name .oneOrMore)
  | x :: xs =>
    .ok (xs.foldl (fun best y => if better y.toFloat best.toFloat then y else best) x)

def sum (args : List Number) : Result := args.foldlM add (.int 0)

def logarithm : List Number → Result
  | [x] => if x.toFloat ≤ 0.0 then .error .domain else float x.toFloat.log
  | [x, base] =>
    if x.toFloat ≤ 0.0 then .error .domain
    else if base.toFloat ≤ 0.0 then .error .domain
    else if base.toFloat == 1.0 then .error .divisionByZero
    else float (x.toFloat.log / base.toFloat.log)
  | _ => .error (.arity Function.log.name .oneOrTwo)

/-- The product of the numbers from 1 to `n`. -/
def product : Nat → Nat
  | 0 => 1
  | n + 1 => (n + 1) * product n

/-- Beyond 20 no factorial fits in 64 bits. -/
def factorial (args : List Number) : Result := do
  let n ← integer .factorial (← one .factorial args)
  if n < 0 then .error (.type .negativeFactorial)
  else if 20 < n then .error .overflow
  else exact (product n.toNat)

/-- The greatest common divisor of the arguments, each intermediate one within 64 bits. -/
def greatestDivisor (args : List Number) : Result := do
  let g ← args.foldlM (fun (g : Nat) x => do
    let n ← integer .gcd x
    let g := Nat.gcd g n.natAbs
    if (g : Int) ≤ int64Max then .ok g else .error .overflow) 0
  .ok (.int g)

/-- Applies a function. The elementary functions are those of the C library, the inverse hyperbolic
ones too: `asinh(-4.9612)` is -2.3048005075269002, where the usual formula by `log1p` and `hypot`,
`log1p (x + x / (hypot 1 x⁻¹ + x⁻¹))` for positive `x`, has -2.3048005075269007, and where that formula
overflows (`asinh(1.5e308)`) they have a value. -/
def apply (f : Function) (args : List Number) : Result :=
  match f with
  | .abs => absolute args
  | .round => round args
  | .min => best .min (fun y best => y < best) args
  | .max => best .max (fun y best => best < y) args
  | .sum => sum args
  | .pow => do
    let (b, e) ← two .pow args
    power b e
  | .sin => real .sin Float.sin args
  | .cos => real .cos Float.cos args
  | .tan => real .tan Float.tan args
  | .asin => real .asin Float.asin args
  | .acos => real .acos Float.acos args
  | .atan => real .atan Float.atan args
  | .atan2 => do
    let (y, x) ← two .atan2 args
    float (Float.atan2 y.toFloat x.toFloat)
  | .sinh => real .sinh Float.sinh args
  | .cosh => real .cosh Float.cosh args
  | .tanh => real .tanh Float.tanh args
  | .asinh => real .asinh Float.asinh args
  | .acosh => real .acosh Float.acosh args
  | .atanh => do
    let x := (← one .atanh args).toFloat
    if 1.0 ≤ x.abs then .error .domain else float x.atanh
  | .exp => real .exp Float.exp args
  | .log => logarithm args
  | .log10 => ofPositive .log10 Float.log10 args
  | .log2 => ofPositive .log2 Float.log2 args
  | .sqrt => real .sqrt Float.sqrt args
  | .ceil => rounded .ceil Float64.ceil args
  | .floor => rounded .floor Float64.floor args
  | .factorial => factorial args
  | .gcd => greatestDivisor args
  | .degrees => real .degrees (· * (180.0 / Constant.pi.value)) args
  | .radians => real .radians (· * (Constant.pi.value / 180.0)) args

/-- Calls the function of a name. -/
def call (name : String) (args : List Number) : Result :=
  let lowered := Text.lowercase name
  match function? lowered with
  | some f => apply f args
  | none =>
    match constant? lowered with
    | some _ => .error (.notFunction lowered)
    | none => .error (.unknownFunction name)

end ChatAgent.Calculator
