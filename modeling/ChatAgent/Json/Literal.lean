import ChatAgent.Json.Basic

/-!
Number literals of JSON and the numbers they denote. A literal without point and exponent is an
integer if that fits in 64 bits, with or without a sign. Any other is a float: the leading digits
that fit in 64 bits make up a whole number, which is then multiplied or divided by one power of
ten. A literal beyond the floats denotes nothing.
-/

namespace ChatAgent.Json

/-- A number as it is written. -/
structure Literal where
  negative : Bool
  /-- The digits before the point. -/
  whole : List Nat
  /-- The digits after the point. -/
  fraction : List Nat
  /-- The exponent: whether it is negative, and its digits. -/
  exponent : Option (Bool × List Nat)
  deriving DecidableEq, Repr

namespace Literal

/-- The power of ten as a float, for exponents that floats reach. -/
def tenTo (n : Nat) : Float := Float.ofScientific 1 false n

/-- As many of the digits as fit in 64 bits after `n`, and the digits that do not. -/
def keep : Nat → List Nat → Nat × List Nat
  | n, [] => (n, [])
  | n, d :: ds => if n * 10 + d ≤ word64Max then keep (n * 10 + d) ds else (n, d :: ds)

/-- A float times a power of ten. The greatest power that is a float is 10^308; below its
reciprocal the float is divided in steps. -/
def scale (x : Float) (exponent : Int) : Option Float :=
  if exponent.natAbs ≤ 308 then
    if 0 ≤ exponent then
      let y := x * tenTo exponent.natAbs
      if y.isInf then none else some y
    else some (x / tenTo exponent.natAbs)
  else if x == 0.0 then some x
  else if 0 ≤ exponent then none
  else scale (x / tenTo 308) (exponent + 308)
termination_by exponent.natAbs
decreasing_by omega

/-- The number that the digits say. -/
def natOf (digits : List Nat) : Nat := digits.foldl (fun n d => n * 10 + d) 0

/-- The greatest exponent that is not cut off. -/
def exponentMax : Nat := 2147483647

/-- The magnitude of a literal that is a float. -/
def magnitude? (l : Literal) : Option Float :=
  let (n, dropped) := keep 0 l.whole
  let (n, ignored) := keep n l.fraction
  let places : Int := dropped.length - (l.fraction.length - ignored.length : Nat)
  match l.exponent with
  | none => scale (Float.ofNat n) places
  | some (down, digits) =>
    let e := natOf digits
    if exponentMax < e then if n = 0 ∨ down then some 0.0 else none
    else scale (Float.ofNat n) (if down then places - e else places + e)

/-- Whether the literal is written as an integer. -/
def isWhole (l : Literal) : Bool := l.fraction.isEmpty && l.exponent.isNone

/-- The number that a literal denotes. -/
def number? (l : Literal) : Option Number :=
  let n := natOf l.whole
  if l.isWhole ∧ ¬ l.negative ∧ n ≤ word64Max then some (.int n)
  else if l.isWhole ∧ l.negative ∧ n ≠ 0 ∧ n ≤ 9223372036854775808 then some (.int (-n))
  else l.magnitude?.map fun x => .float (if l.negative then -x else x)

/-! ## Reading -/

/-- Whether a symbol is a decimal digit. -/
def isDigit : Option Char → Bool
  | some c => c.isDigit
  | none => false

/-- The values of the digits at the front. -/
def digits (s : List (Option Char)) : List Nat :=
  (s.takeWhile isDigit).filterMap (·.map fun c => c.toNat - '0'.toNat)

/-- What follows the digits at the front. -/
def afterDigits (s : List (Option Char)) : List (Option Char) := s.dropWhile isDigit

/-- Reads the digits after a point; there is at least one. -/
def readFraction : List (Option Char) → Option (List Nat × List (Option Char))
  | some '.' :: s => if (digits s).isEmpty then none else some (digits s, afterDigits s)
  | s => some ([], s)

/-- Reads the sign of an exponent. -/
def readSign : List (Option Char) → Bool × List (Option Char)
  | some '-' :: s => (true, s)
  | some '+' :: s => (false, s)
  | s => (false, s)

/-- Reads the digits of an exponent; there is at least one. -/
def readPower (down : Bool) (s : List (Option Char)) :
    Option (Option (Bool × List Nat) × List (Option Char)) :=
  if (digits s).isEmpty then none else some (some (down, digits s), afterDigits s)

/-- Reads an exponent, if there is one. -/
def readExponent : List (Option Char) → Option (Option (Bool × List Nat) × List (Option Char))
  | some 'e' :: s => readPower (readSign s).1 (readSign s).2
  | some 'E' :: s => readPower (readSign s).1 (readSign s).2
  | s => some (none, s)

/-- Whether digits can stand before a point: there is at least one, and a leading zero stands
alone. -/
def isWholePart : List Nat → Bool
  | [] => false
  | [_] => true
  | d :: _ => d != 0

/-- Reads a literal without its sign. -/
def readUnsigned (negative : Bool) (s : List (Option Char)) :
    Option (Literal × List (Option Char)) :=
  if isWholePart (digits s) then
    match readFraction (afterDigits s) with
    | none => none
    | some (fraction, r) =>
      match readExponent r with
      | none => none
      | some (exponent, r) => some (⟨negative, digits s, fraction, exponent⟩, r)
  else none

/-- Reads a literal at the front. -/
def read : List (Option Char) → Option (Literal × List (Option Char))
  | some '-' :: s => readUnsigned true s
  | s => readUnsigned false s

/-! ## What is read is taken away -/

theorem digits_eq_nil_iff {s : List (Option Char)} : digits s = [] ↔ afterDigits s = s := by
  cases s with
  | nil => simp [digits, afterDigits]
  | cons a s =>
    cases a with
    | none => simp [digits, afterDigits, isDigit]
    | some c =>
      by_cases h : c.isDigit
      · simp only [digits, afterDigits, List.takeWhile_cons, isDigit, h, if_true,
          List.filterMap_cons, Option.map_some, List.dropWhile_cons, reduceCtorEq, false_iff]
        intro h'
        have := congrArg List.length h'
        have := (List.dropWhile_suffix (p := isDigit) (l := s)).length_le
        simp_all only [List.length_cons]
        omega
      · simp [digits, afterDigits, isDigit, h]

theorem length_afterDigits_le (s : List (Option Char)) : (afterDigits s).length ≤ s.length :=
  (List.dropWhile_suffix _).length_le

theorem length_afterDigits_lt {s : List (Option Char)} (h : digits s ≠ []) :
    (afterDigits s).length < s.length := by
  refine Nat.lt_of_le_of_ne (length_afterDigits_le s) fun h' => h (digits_eq_nil_iff.2 ?_)
  exact (List.dropWhile_suffix _).eq_of_length h'

theorem length_readFraction {s r : List (Option Char)} {ds : List Nat}
    (h : readFraction s = some (ds, r)) : r.length ≤ s.length := by
  unfold readFraction at h
  split at h
  · split at h
    · cases h
    · cases h
      exact Nat.le_succ_of_le (length_afterDigits_le _)
  · cases h
    exact Nat.le_refl _

theorem length_readSign (s : List (Option Char)) : (readSign s).2.length ≤ s.length := by
  unfold readSign
  split <;> simp

theorem length_readPower {down : Bool} {s r : List (Option Char)} {e : Option (Bool × List Nat)}
    (h : readPower down s = some (e, r)) : r.length ≤ s.length := by
  unfold readPower at h
  split at h
  · cases h
  · cases h
    exact length_afterDigits_le s

theorem length_readExponent {s r : List (Option Char)} {e : Option (Bool × List Nat)}
    (h : readExponent s = some (e, r)) : r.length ≤ s.length := by
  unfold readExponent at h
  split at h
  · exact Nat.le_succ_of_le (Nat.le_trans (length_readPower h) (length_readSign _))
  · exact Nat.le_succ_of_le (Nat.le_trans (length_readPower h) (length_readSign _))
  · cases h
    exact Nat.le_refl _

theorem length_readUnsigned {negative : Bool} {s r : List (Option Char)} {l : Literal}
    (h : readUnsigned negative s = some (l, r)) : r.length < s.length := by
  unfold readUnsigned at h
  split at h
  · rename_i hd
    split at h
    · cases h
    · rename_i hf
      split at h
      · cases h
      · rename_i he
        cases h
        have hne : digits s ≠ [] := by
          intro hn
          simp [hn, isWholePart] at hd
        exact Nat.lt_of_le_of_lt
          (Nat.le_trans (length_readExponent he) (length_readFraction hf))
          (length_afterDigits_lt hne)
  · cases h

theorem length_read {s r : List (Option Char)} {l : Literal} (h : read s = some (l, r)) :
    r.length < s.length := by
  unfold read at h
  split at h
  · exact Nat.lt_succ_of_lt (length_readUnsigned h)
  · exact length_readUnsigned h

end Literal

end ChatAgent.Json
