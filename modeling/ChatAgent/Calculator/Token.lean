import ChatAgent.Number.Basic

/-!
Tokens of expressions, and why an expression cannot be computed.
-/

namespace ChatAgent.Calculator

/-- A token of an expression. -/
inductive Token where
  | number (n : Number)
  | name (s : String)
  | plus
  | minus
  | star
  | slash
  | doubleSlash
  | percent
  | doubleStar
  | openParen
  | closeParen
  | comma
  deriving DecidableEq

namespace Token

/-- How an error message shows a token. -/
def text : Token → String
  | number n => "number " ++ n.text .result
  | name s => "name '" ++ s ++ "'"
  | plus => "'+'"
  | minus => "'-'"
  | star => "'*'"
  | slash => "'/'"
  | doubleSlash => "'//'"
  | percent => "'%'"
  | doubleStar => "'**'"
  | openParen => "'('"
  | closeParen => "')'"
  | comma => "','"

end Token

/-! ## Faults -/

/-- Why a text is not an expression. -/
inductive Malformed where
  | empty
  | character (c : Char)
  | number (text : String)
  /-- A token stands where none of its kind can. -/
  | unexpected (t : Token)
  /-- The text ends where an operand has to stand. -/
  | ended
  /-- Another token, or the end, stands where only one token can. -/
  | expected (t : Token) (found : Option Token)
  | tooDeep
  deriving DecidableEq

namespace Malformed

def message : Malformed → String
  | empty => "empty expression"
  | character c => "invalid character '" ++ c.toString ++ "'"
  | number text => "invalid number '" ++ text ++ "'"
  | unexpected t => "unexpected " ++ t.text
  | ended => "unexpected end of expression"
  | expected t (some found) => "expected " ++ t.text ++ ", found " ++ found.text
  | expected t none => "expected " ++ t.text
  | tooDeep => "expression too deeply nested"

end Malformed

/-- How many arguments a function takes. -/
inductive Arity where
  | one
  | two
  | oneOrTwo
  | oneOrMore
  deriving DecidableEq, Repr

namespace Arity

def message : Arity → String
  | one => "takes exactly one argument"
  | two => "takes exactly two arguments"
  | oneOrTwo => "takes one or two arguments"
  | oneOrMore => "expected at least 1 argument, got 0"

end Arity

/-- Which numbers an operation cannot take. -/
inductive Unsuitable where
  /-- Zero to a negative power. -/
  | zeroPower
  /-- A float, for a function of integers. -/
  | notInteger (function : String)
  /-- The factorial of a negative number. -/
  | negativeFactorial
  /-- An infinity or NaN, where an integer is the result. -/
  | notFinite (x : Float)
  deriving DecidableEq

namespace Unsuitable

def message : Unsuitable → String
  | zeroPower => "0.0 cannot be raised to a negative power"
  | notInteger function => function ++ "() only accepts integral values"
  | negativeFactorial => "factorial() not defined for negative values"
  | notFinite x => "cannot convert float " ++ Layout.result.float x ++ " to integer"

end Unsuitable

/-- Why an expression has no value. -/
inductive Fault where
  | malformed (why : Malformed)
  | unknownVariable (name : String)
  | unknownFunction (name : String)
  /-- A function stands where a constant is meant. -/
  | notConstant (name : String)
  /-- A constant is called. -/
  | notFunction (name : String)
  | arity (function : String) (takes : Arity)
  | type (why : Unsuitable)
  | divisionByZero
  | domain
  | range
  | overflow
  deriving DecidableEq

namespace Fault

def message : Fault → String
  | malformed why => "Invalid expression syntax: " ++ why.message
  | unknownVariable name => "Unknown variable: " ++ name
  | unknownFunction name => "Unknown function: " ++ name
  | notConstant name => "'" ++ name ++ "' is a function, not a constant"
  | notFunction name => "'" ++ name ++ "' is not a function"
  | arity function takes => function ++ "() " ++ takes.message
  | type why => why.message
  | divisionByZero => "division by zero"
  | domain => "math domain error"
  | range => "math range error"
  | overflow => "integer overflow"

end Fault

end ChatAgent.Calculator
