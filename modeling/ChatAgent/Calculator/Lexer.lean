import ChatAgent.Calculator.Token
import ChatAgent.Text.Blank

/-!
How an expression is cut into tokens. White space separates tokens and is otherwise of no account;
a token is as long as it can be.
-/

namespace ChatAgent.Calculator.Token

/-- Letters that begin a name. -/
def beginsName (c : Char) : Bool := c.isAlpha || c == '_'

/-- Letters of a name. -/
def inName (c : Char) : Bool := c.isAlphanum || c == '_'

/-! ## Numbers -/

/-- A number as it is written: the digits before the point, those behind it if there is a point,
and the exponent if there is one. -/
structure Numeral where
  whole : List Char
  fraction : Option (List Char)
  /-- The letter, the sign and the digits of the exponent. -/
  exponent : Option (Char × List Char × List Char)
  deriving DecidableEq, Repr

namespace Numeral

/-- The text of a numeral. -/
def chars (n : Numeral) : List Char :=
  n.whole ++
    (match n.fraction with
      | some ds => '.' :: ds
      | none => []) ++
    match n.exponent with
    | some (letter, sign, ds) => letter :: (sign ++ ds)
    | none => []

/-- The number that digits say. -/
def natOf (digits : List Char) : Nat :=
  digits.foldl (fun n c => n * 10 + (c.toNat - '0'.toNat)) 0

/-- The power of ten that the exponent says. -/
def power (n : Numeral) : Int :=
  match n.exponent with
  | some (_, ['-'], ds) => Int.negOfNat (natOf ds)
  | some (_, _, ds) => natOf ds
  | none => 0

/-- The nearest float. -/
def float (n : Numeral) : Float :=
  let fraction := n.fraction.getD []
  let e := n.power - fraction.length
  Float.ofScientific (natOf (n.whole ++ fraction)) (e < 0) e.natAbs

/-- The number that a numeral says. An integer has to fit in 64 bits, and a float has to have a
digit before its exponent. -/
def value (n : Numeral) : Except Fault Number :=
  match n.fraction, n.exponent with
  | none, none =>
    if natOf n.whole ≤ int64Max then .ok (.int (natOf n.whole)) else .error .overflow
  | some [], none => if n.whole = [] then .error (.malformed (.character '.')) else .ok (.float n.float)
  | some [], some _ =>
    if n.whole = [] then .error (.malformed (.number (String.ofList n.chars)))
    else .ok (.float n.float)
  | _, _ => .ok (.float n.float)

/-- Reads the fraction, if a point follows. -/
def readFraction : List Char → Option (List Char) × List Char
  | '.' :: cs => (some (cs.takeWhile Char.isDigit), cs.dropWhile Char.isDigit)
  | cs => (none, cs)

/-- Reads a sign, if there is one. -/
def readSign : List Char → List Char × List Char
  | '+' :: cs => (['+'], cs)
  | '-' :: cs => (['-'], cs)
  | cs => ([], cs)

/-- Reads the exponent. A letter that no digit follows is none. -/
def readExponent : List Char → Option (Char × List Char × List Char) × List Char
  | c :: cs =>
    let digits := (readSign cs).2.takeWhile Char.isDigit
    if (c = 'e' ∨ c = 'E') ∧ digits ≠ [] then
      (some (c, (readSign cs).1, digits), (readSign cs).2.dropWhile Char.isDigit)
    else (none, c :: cs)
  | [] => (none, [])

/-- Reads a numeral. -/
def read (cs : List Char) : Numeral × List Char :=
  let (fraction, r) := readFraction (cs.dropWhile Char.isDigit)
  let (exponent, r) := readExponent r
  (⟨cs.takeWhile Char.isDigit, fraction, exponent⟩, r)

theorem length_readFraction (cs : List Char) : (readFraction cs).2.length ≤ cs.length := by
  unfold readFraction
  split
  · exact Nat.le_succ_of_le (List.dropWhile_suffix _).length_le
  · exact Nat.le_refl _

theorem length_readSign (cs : List Char) : (readSign cs).2.length ≤ cs.length := by
  unfold readSign
  split <;> simp

theorem length_readExponent (cs : List Char) : (readExponent cs).2.length ≤ cs.length := by
  unfold readExponent
  split
  · dsimp only
    split
    · exact Nat.le_succ_of_le
        (Nat.le_trans (List.dropWhile_suffix _).length_le (length_readSign _))
    · exact Nat.le_refl _
  · exact Nat.le_refl _

theorem length_read {c : Char} {cs : List Char} (h : c.isDigit ∨ c = '.') :
    (read (c :: cs)).2.length < (c :: cs).length := by
  unfold read
  dsimp only
  refine Nat.lt_of_le_of_lt (length_readExponent _) ?_
  rcases Bool.eq_false_or_eq_true c.isDigit with hd | hd
  · rw [List.dropWhile_cons_of_pos hd]
    exact Nat.lt_succ_of_le
      (Nat.le_trans (length_readFraction _) (List.dropWhile_suffix _).length_le)
  · rcases h with h | rfl
    · simp [h] at hd
    · rw [List.dropWhile_cons_of_neg (by simp [hd])]
      exact Nat.lt_succ_of_le (List.dropWhile_suffix _).length_le

end Numeral

/-! ## Scanning -/

/-- The operator at the front, of two that fit the longer one. -/
def readOperator : List Char → Option (Token × List Char)
  | '*' :: '*' :: cs => some (.doubleStar, cs)
  | '/' :: '/' :: cs => some (.doubleSlash, cs)
  | '+' :: cs => some (.plus, cs)
  | '-' :: cs => some (.minus, cs)
  | '*' :: cs => some (.star, cs)
  | '/' :: cs => some (.slash, cs)
  | '%' :: cs => some (.percent, cs)
  | '(' :: cs => some (.openParen, cs)
  | ')' :: cs => some (.closeParen, cs)
  | ',' :: cs => some (.comma, cs)
  | _ => none

theorem length_readOperator {cs r : List Char} {t : Token} (h : readOperator cs = some (t, r)) :
    r.length < cs.length := by
  unfold readOperator at h
  split at h <;> cases h <;> simp only [List.length_cons] <;> omega

/-- Reads the token that begins with `c`. -/
def read (c : Char) (cs : List Char) : Except Fault (Token × List Char) :=
  if c.isDigit ∨ c = '.' then
    match (Numeral.read (c :: cs)).1.value with
    | .ok n => .ok (.number n, (Numeral.read (c :: cs)).2)
    | .error e => .error e
  else if beginsName c then
    .ok (.name (String.ofList (c :: cs.takeWhile inName)), cs.dropWhile inName)
  else
    match readOperator (c :: cs) with
    | some (t, r) => .ok (t, r)
    | none => .error (.malformed (.character c))

theorem length_read {c : Char} {cs r : List Char} {t : Token} (h : read c cs = .ok (t, r)) :
    r.length < (c :: cs).length := by
  unfold read at h
  split at h
  · rename_i hc
    split at h
    · cases h
      exact Numeral.length_read hc
    · cases h
  · split at h
    · cases h
      exact Nat.lt_succ_of_le (List.dropWhile_suffix _).length_le
    · split at h
      · rename_i ho
        cases h
        exact length_readOperator ho
      · cases h

/-- The tokens of a text, those so far given in reverse. -/
def scan : List Char → List Token → Except Fault (List Token)
  | [], out => .ok out.reverse
  | c :: cs, out =>
    if Text.isBlank c then scan cs out
    else
      match _ : read c cs with
      | .ok (t, r) => scan r (t :: out)
      | .error e => .error e
termination_by cs => cs.length
decreasing_by
  · simp
  · rename_i h
    exact length_read h

/-- The tokens of an expression; there has to be one. -/
def ofText (s : String) : Except Fault (List Token) :=
  match scan s.toList [] with
  | .ok [] => .error (.malformed .empty)
  | .ok ts => .ok ts
  | .error e => .error e

end ChatAgent.Calculator.Token
