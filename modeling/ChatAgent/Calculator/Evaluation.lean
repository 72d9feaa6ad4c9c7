import ChatAgent.Calculator.Function
import ChatAgent.Calculator.Lexer

/-!
Evaluation of expressions, in one pass from left to right:

    expression  term (('+' | '-') term)*
    term        operand (('*' | '/' | '//' | '%') operand)*
    operand     ('+' | '-') operand | power
    power       primary ('**' operand)?
    primary     NUMBER | NAME | NAME '(' arguments ')' | '(' expression ')'

An operation is carried out as soon as its operands are known, so of two faults the one further
left is reported, whether it is one of form or of value. Operands nest at most `maxDepth` deep; the
reader of operands one level deeper is handed down as `operand`.
-/

namespace ChatAgent.Calculator

/-- What reading a part of an expression gives: its value, and the tokens after it. -/
abbrev Reading := Except Fault (Number × List Token)

/-- How deep operands may nest. -/
def maxDepth : Nat := 100

/-- Expects a token. -/
def expect (t : Token) : List Token → Except Fault (List Token)
  | found :: ts => if found = t then .ok ts else .error (.malformed (.expected t (some found)))
  | [] => .error (.malformed (.expected t none))

/-- After a value `v`: as long as an operator of this rank follows, reads the next operand and
carries the operation out. Each round takes at least one of at most `rounds` tokens. -/
def chain (operation? : Token → Option (Number → Number → Result))
    (operand : List Token → Reading) : Nat → Number → List Token → Reading
  | 0, v, ts => .ok (v, ts)
  | _, v, [] => .ok (v, [])
  | rounds + 1, v, t :: ts =>
    match operation? t with
    | none => .ok (v, t :: ts)
    | some op => do
      let (w, rest) ← operand ts
      let v ← op v w
      chain operation? operand rounds v rest

/-- The operations between terms. -/
def additive? : Token → Option (Number → Number → Result)
  | .plus => some add
  | .minus => some sub
  | _ => none

/-- The operations between operands. -/
def multiplicative? : Token → Option (Number → Number → Result)
  | .star => some mul
  | .slash => some divide
  | .doubleSlash => some floorDivide
  | .percent => some modulo
  | _ => none

section Levels

variable (operand : List Token → Reading)

def term (ts : List Token) : Reading := do
  let (v, rest) ← operand ts
  chain multiplicative? operand rest.length v rest

def expression (ts : List Token) : Reading := do
  let (v, rest) ← term operand ts
  chain additive? (term operand) rest.length v rest

/-- The arguments of a call after the first, up to the closing parenthesis. -/
def moreArguments : Nat → List Number → List Token → Except Fault (List Number × List Token)
  | rounds + 1, args, .comma :: ts => do
    let (v, rest) ← expression operand ts
    moreArguments rounds (args ++ [v]) rest
  | _, args, ts => do
    let rest ← expect .closeParen ts
    .ok (args, rest)

/-- The arguments of a call after its opening parenthesis. -/
def arguments : List Token → Except Fault (List Number × List Token)
  | .closeParen :: ts => .ok ([], ts)
  | ts => do
    let (v, rest) ← expression operand ts
    moreArguments operand rest.length [v] rest

def primary : List Token → Reading
  | .number n :: ts => .ok (n, ts)
  | .openParen :: ts => do
    let (v, rest) ← expression operand ts
    let rest ← expect .closeParen rest
    .ok (v, rest)
  | .name s :: .openParen :: ts => do
    let (args, rest) ← arguments operand ts
    let v ← call s args
    .ok (v, rest)
  | .name s :: ts => do
    let v ← valueOf s
    .ok (v, ts)
  | t :: _ => .error (.malformed (.unexpected t))
  | [] => .error (.malformed .ended)

def powered (ts : List Token) : Reading := do
  match ← primary operand ts with
  | (b, .doubleStar :: rest) => do
    let (e, rest) ← operand rest
    let v ← power b e
    .ok (v, rest)
  | (b, rest) => .ok (b, rest)

end Levels

/-- An operand, where operands may nest so many levels deep. -/
def operand : Nat → List Token → Reading
  | 0, _ => .error (.malformed .tooDeep)
  | depth + 1, .minus :: ts => do
    let (v, rest) ← operand depth ts
    let v ← neg v
    .ok (v, rest)
  | depth + 1, .plus :: ts => operand depth ts
  | depth + 1, ts => powered (operand depth) ts

/-- The value of the expression that tokens make up. -/
def evaluateTokens (ts : List Token) : Result := do
  match ← expression (operand maxDepth) ts with
  | (v, []) => .ok v
  | (_, t :: _) => .error (.malformed (.unexpected t))

/-- The value of an expression. -/
def evaluate (s : String) : Result := do
  let ts ← Token.ofText s
  evaluateTokens ts

/-- The text of a value. -/
def display (n : Number) : String := n.text .result

end ChatAgent.Calculator
