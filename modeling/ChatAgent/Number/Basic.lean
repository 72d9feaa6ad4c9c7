import ChatAgent.Number.Layout

/-!
Numbers as texts and expressions give them: exact integers, and floats.
-/

namespace ChatAgent

/-- An exact integer or a float. -/
inductive Number where
  | int (n : Int)
  | float (x : Float)
  deriving DecidableEq

namespace Number

/-- The value as a float. -/
def toFloat : Number → Float
  | .int n => Float.ofInt n
  | .float x => x

/-- The text of a number; floats are laid out by `l`. -/
def text (l : Layout) : Number → String
  | .int n => toString n
  | .float x => l.float x

end Number

/-- The least integer of 64 bits. -/
def int64Min : Int := -9223372036854775808

/-- The greatest integer of 64 bits. -/
def int64Max : Int := 9223372036854775807

/-- Whether the integer fits in 64 bits with a sign. -/
def FitsInt64 (n : Int) : Prop := int64Min ≤ n ∧ n ≤ int64Max

instance (n : Int) : Decidable (FitsInt64 n) := by unfold FitsInt64; infer_instance

/-- The greatest integer of 64 bits without a sign. -/
def word64Max : Nat := 18446744073709551615

end ChatAgent
