import ChatAgent.Proofs.ExpressionTree

/-!
# Integers of 64 bits

The calculator holds integers in words of 64 bits: from operands and arguments that fit it makes
numbers that fit (`Operation.apply_fits`, `call_fits`).
-/

namespace ChatAgent.Calculator

/-- The number is a float, or an integer of 64 bits. -/
def Fits : Number → Prop
  | .int n => FitsInt64 n
  | .float _ => True

instance (v : Number) : Decidable (Fits v) :=
  match v with
  | .int n => inferInstanceAs (Decidable (FitsInt64 n))
  | .float _ => inferInstanceAs (Decidable True)

/-- What a computation gives has a property, unless it is a fault. -/
def Yields {α : Type} (P : α → Prop) (r : Except Fault α) : Prop := ∀ a, r = .ok a → P a

namespace Yields

variable {α β : Type} {P : α → Prop} {Q : β → Prop}

theorem ok {a : α} (h : P a) : Yields P (.ok a) := by
  rintro _ ⟨⟩
  exact h

theorem error {e : Fault} : Yields P (.error e) := nofun

theorem bind {r : Except Fault α} {f : α → Except Fault β} (h : Yields P r)
    (hf : ∀ a, P a → Yields Q (f a)) : Yields Q (r >>= f) := by
  cases r with
  | ok a => exact hf a (h a rfl)
  | error e => exact nofun

theorem after {r : Except Fault α} {f : α → Except Fault β} (hf : ∀ a, Yields Q (f a)) :
    Yields Q (r >>= f) :=
  bind (P := fun _ => True) (fun _ _ => trivial) fun a _ => hf a

theorem ite {c : Prop} [Decidable c] {r r' : Except Fault α} (h : Yields P r) (h' : Yields P r') :
    Yields P (if c then r else r') := by
  split
  · exact h
  · exact h'

theorem foldlM {f : α → β → Except Fault α} (hf : ∀ a b, P a → Q b → Yields P (f a b)) {bs : List β}
    (hbs : ∀ b ∈ bs, Q b) {a : α} (ha : P a) : Yields P (bs.foldlM f a) := by
  induction bs generalizing a with
  | nil => exact ok ha
  | cons b bs ih =>
      exact bind (hf a b ha (hbs b List.mem_cons_self)) fun c hc =>
        ih (fun b' hb => hbs b' (List.mem_cons_of_mem _ hb)) hc

end Yields

theorem exact_fits (n : Int) : Yields Fits (exact n) := by
  unfold exact
  split
  · exact .ok ‹_›
  · exact .error

theorem float_fits (x : Float) : Yields Fits (float x) := .ok trivial

theorem finite_fits (x : Float) : Yields Fits (finite x) := .ite .error (.ite .error (.ok trivial))

theorem toInteger_fits (x : Float) : Yields Fits (toInteger x) := by
  unfold toInteger
  split
  · exact exact_fits _
  · exact .error

theorem floatPower_fits (b e : Float) : Yields Fits (floatPower b e) :=
  .ite .error (.ite .error (finite_fits _))

theorem integerPower_fits (b : Int) (e : Nat) : Yields Fits (integerPower b e) := by
  have hsign : FitsInt64 (if e % 2 = 0 then 1 else -1) := by split <;> decide
  exact .ite (exact_fits _)
    (.ite (.ok (by decide)) (.ite (.ok (by decide)) (.ite (.ok hsign) .error)))

theorem neg_fits (v : Number) : Yields Fits (neg v) := by
  cases v with
  | int n => exact exact_fits _
  | float x => exact float_fits _

theorem power_fits (v w : Number) : Yields Fits (power v w) := by
  unfold power
  split
  · exact .ite (.ite (integerPower_fits _ _) .error) (floatPower_fits _ _)
  · exact floatPower_fits _ _

theorem add_fits (v w : Number) : Yields Fits (add v w) := by
  cases v <;> cases w <;> first | exact exact_fits _ | exact float_fits _

theorem Operation.apply_fits (p : Operation) (v w : Number) : Yields Fits (p.apply v w) := by
  cases p with
  | add => exact add_fits v w
  | sub | mul => cases v <;> cases w <;> first | exact exact_fits _ | exact float_fits _
  | divide => exact .ite .error (float_fits _)
  | floorDivide =>
      refine .ite .error ?_
      split
      · exact exact_fits _
      · exact float_fits _
  | modulo =>
      refine .ite .error ?_
      split
      · exact .ite .error (exact_fits _)
      · exact float_fits _
  | power => exact power_fits v w

section Functions

variable {args : List Number} (h : ∀ a ∈ args, Fits a)

include h

theorem one_fits (f : Function) : Yields Fits (one f args) := by
  unfold one
  split
  · exact .ok (h _ List.mem_cons_self)
  · exact .error

theorem rounded_fits (f : Function) (g : Float → Float) : Yields Fits (rounded f g args) := by
  refine .bind (one_fits h f) fun x hx => ?_
  cases x with
  | int n => exact .ok hx
  | float x => exact toInteger_fits _

theorem round_fits : Yields Fits (round args) := by
  unfold round
  split
  · exact .ok (h _ List.mem_cons_self)
  · exact toInteger_fits _
  · refine .after fun places => ?_
    split
    · exact .ite (.ok (h _ List.mem_cons_self)) (.ite (toInteger_fits _) .error)
    · exact .ite (float_fits _) .error
  · exact .error

theorem best_fits (f : Function) (better : Float → Float → Bool) :
    Yields Fits (best f better args) := by
  cases args with
  | nil => exact .error
  | cons x xs =>
      obtain ⟨hx, hxs⟩ := List.forall_mem_cons.mp h
      refine .ok ?_
      refine List.foldlRecOn xs _ hx fun b hb y hy => ?_
      split
      · exact hxs y hy
      · exact hb

end Functions

theorem real_fits (f : Function) (g : Float → Float) (args : List Number) :
    Yields Fits (real f g args) :=
  .after fun _ =>
    .ite .error (.ite .error (float_fits _))

theorem ofPositive_fits (f : Function) (g : Float → Float) (args : List Number) :
    Yields Fits (ofPositive f g args) :=
  .after fun _ => .ite .error (float_fits _)

theorem absolute_fits (args : List Number) : Yields Fits (absolute args) := by
  refine .after fun x => ?_
  cases x with
  | int n => exact exact_fits _
  | float x => exact float_fits _

theorem logarithm_fits (args : List Number) : Yields Fits (logarithm args) := by
  unfold logarithm
  split
  · exact .ite .error (float_fits _)
  · exact .ite .error (.ite .error (.ite .error (float_fits _)))
  · exact .error

theorem factorial_fits (args : List Number) : Yields Fits (factorial args) :=
  .after fun _ =>
    .after fun _ =>
      .ite .error (.ite .error (exact_fits _))

theorem greatestDivisor_fits (args : List Number) : Yields Fits (greatestDivisor args) := by
  have hstep (g : Nat) (x : Number) : Yields (fun g : Nat => (g : Int) ≤ int64Max) (do
      let n ← integer .gcd x
      let g := Nat.gcd g n.natAbs
      if (g : Int) ≤ int64Max then .ok g else .error .overflow) := by
    refine .after fun n => ?_
    dsimp only
    split
    · exact .ok ‹_›
    · exact .error
  refine .bind (.foldlM (fun g x _ _ => hstep g x) (Q := fun _ => True) (fun _ _ => trivial)
    (by decide)) fun g hg => .ok ⟨?_, hg⟩
  exact Int.le_trans (by decide) (Int.natCast_nonneg g)

theorem apply_fits (f : Function) {args : List Number} (h : ∀ a ∈ args, Fits a) :
    Yields Fits (apply f args) := by
  unfold apply
  cases f with
  | abs => exact absolute_fits args
  | round => exact round_fits h
  | min | max => exact best_fits h _ _
  | sum => exact .foldlM (fun a b _ _ => add_fits a b) h (by decide : Fits (.int 0))
  | pow => exact .after fun _ => power_fits _ _
  | atan2 => exact .after fun _ => float_fits _
  | atanh =>
      exact .after fun _ => .ite .error (float_fits _)
  | log => exact logarithm_fits args
  | log10 | log2 => exact ofPositive_fits _ _ args
  | ceil | floor => exact rounded_fits h _ _
  | factorial => exact factorial_fits args
  | gcd => exact greatestDivisor_fits args
  | _ => exact real_fits _ _ args

theorem call_fits (name : String) {args : List Number} (h : ∀ a ∈ args, Fits a) :
    Yields Fits (call name args) := by
  unfold call
  dsimp only
  split
  · exact apply_fits _ h
  · split <;> exact .error

theorem valueOf_fits (name : String) : Yields Fits (valueOf name) := by
  unfold valueOf
  dsimp only
  split
  · exact float_fits _
  · split <;> exact .error

end ChatAgent.Calculator
