import ChatAgent.Proofs.IntegerTree
import ChatAgent.Proofs.UncheckedArithmetic

/-!
# Powers of integers

A power is computed by squaring, with every product checked. A product on the way is out of range
only if the power itself is (`Machine.raise_eq`), so a power is exact wherever it fits, unless the
exponent has more than 32 binary digits: then even the powers of 0, 1 and -1 are refused
(`power_int`, `not_power_int`).
-/

namespace ChatAgent.Calculator

namespace Machine

/-- A product, if it fits in 64 bits. -/
def checked (n : Int) : Except Fault Int := if FitsInt64 n then .ok n else .error .overflow

/-- Multiplies `acc` by the power `b ^ e`: the exponent is halved and the base squared, and where
the exponent is odd the base is multiplied in. -/
def raise (acc b : Int) (e : Nat) : Except Fault Int :=
  if e = 0 then .ok acc
  else if e = 1 then checked (acc * b)
  else do
    let acc ← if e % 2 = 1 then checked (acc * b) else .ok acc
    let b ← checked (b * b)
    raise acc b (e / 2)
termination_by e

/-- The exponent of a power of integers has to fit in 32 bits. -/
def power : Number → Number → Result
  | .int b, .int e =>
    if 0 ≤ e then
      if e ≤ exponentMax then do
        let n ← raise 1 b e.toNat
        .ok (.int n)
      else .error .overflow
    else floatPower (Float.ofInt b) (Float.ofInt e)
  | b, e => Calculator.power b e

variable {acc b : Int} {e : Nat}

theorem le_natAbs_of_not_fits {n : Int} (h : ¬ FitsInt64 n) : 2 ^ 63 ≤ n.natAbs := by
  unfold FitsInt64 int64Min int64Max at h
  omega

theorem not_fits_of_lt_natAbs {n : Int} (h : 2 ^ 63 < n.natAbs) : ¬ FitsInt64 n := by
  unfold FitsInt64 int64Min int64Max
  omega

/-- No square is `2 ^ 63`. -/
theorem lt_natAbs_square (h : ¬ FitsInt64 (b * b)) : 2 ^ 63 < b.natAbs * b.natAbs := by
  have hle := le_natAbs_of_not_fits h
  rw [Int.natAbs_mul] at hle
  have hroot : 3037000500 ≤ b.natAbs := by
    by_contra hsmall
    have hsquare : b.natAbs * b.natAbs ≤ 3037000499 * 3037000499 :=
      Nat.mul_le_mul (by omega) (by omega)
    omega
  have hsquare : 3037000500 * 3037000500 ≤ b.natAbs * b.natAbs := Nat.mul_le_mul hroot hroot
  omega

/-- If the square is out of range, so is what it is a factor of. -/
theorem not_fits_of_square (hsquare : ¬ FitsInt64 (b * b)) (hacc : acc ≠ 0) (he : 2 ≤ e) :
    ¬ FitsInt64 (acc * b ^ e) := by
  have hlt := lt_natAbs_square hsquare
  have hb : 0 < b.natAbs := Nat.pos_of_ne_zero fun h => by simp [h] at hlt
  have hpow : b.natAbs * b.natAbs ≤ b.natAbs ^ e := by
    rw [← Nat.pow_two]
    exact Nat.pow_le_pow_right hb he
  refine not_fits_of_lt_natAbs ?_
  rw [Int.natAbs_mul, Int.natAbs_pow]
  calc 2 ^ 63 < b.natAbs * b.natAbs := hlt
    _ ≤ b.natAbs ^ e := hpow
    _ ≤ acc.natAbs * b.natAbs ^ e := Nat.le_mul_of_pos_left _ (Int.natAbs_pos.mpr hacc)

/-- A product out of range may be one step from fitting, but its next multiple is not. -/
theorem not_fits_of_product (hproduct : ¬ FitsInt64 (acc * b)) (hacc : acc.natAbs ≤ b.natAbs)
    (he : 1 ≤ e) : ¬ FitsInt64 (acc * b ^ e) := by
  obtain ⟨i, rfl⟩ := Nat.exists_eq_add_of_le' he
  cases i with
  | zero => rwa [zero_add, pow_one]
  | succ i =>
      have hle := le_natAbs_of_not_fits hproduct
      rw [Int.natAbs_mul] at hle
      have hb : 2 ≤ b.natAbs := by
        by_contra hsmall
        have hone : acc.natAbs * b.natAbs ≤ 1 * 1 := Nat.mul_le_mul (by omega) (by omega)
        omega
      have hpow : 2 ≤ b.natAbs ^ (i + 1) := Nat.le_trans hb (Nat.le_self_pow (by omega) _)
      refine not_fits_of_lt_natAbs ?_
      rw [Int.natAbs_mul, Int.natAbs_pow, pow_succ' _ (i + 1)]
      calc 2 ^ 63 < 2 ^ 63 * 2 := by decide
        _ ≤ acc.natAbs * b.natAbs * b.natAbs ^ (i + 1) := Nat.mul_le_mul hle hpow
        _ = acc.natAbs * (b.natAbs * b.natAbs ^ (i + 1)) := Nat.mul_assoc _ _ _

theorem checked_of_fits {n : Int} (h : FitsInt64 n) : checked n = .ok n := if_pos h

theorem checked_of_not_fits {n : Int} (h : ¬ FitsInt64 n) : checked n = .error .overflow := if_neg h

theorem pow_halved (b : Int) (e : Nat) : b ^ e = (b * b) ^ (e / 2) * b ^ (e % 2) := by
  conv_lhs => rw [← Nat.div_add_mod e 2, pow_add, pow_mul, pow_two]

/-- What has been multiplied in is never greater than the base, so a product that does not fit is
never made good by what follows. -/
theorem raise_eq (hfits : FitsInt64 acc) (hacc : b ≠ 0 → acc ≠ 0 ∧ acc.natAbs ≤ b.natAbs) :
    raise acc b e = checked (acc * b ^ e) := by
  induction e using Nat.strongRecOn generalizing acc b with
  | ind e ih =>
    rw [raise]
    by_cases he0 : e = 0
    · rw [if_pos he0, he0, pow_zero, mul_one, checked_of_fits hfits]
    by_cases he1 : e = 1
    · rw [if_neg he0, if_pos he1, he1, pow_one]
    rw [if_neg he0, if_neg he1]
    have hnonzero {n : Int} (h : ¬ FitsInt64 (n * b)) : b ≠ 0 := by
      rintro rfl
      exact h (by rw [mul_zero]; decide)
    have hhalf : e / 2 < e := Nat.div_lt_self (Nat.pos_of_ne_zero he0) (by decide)
    have hgrown : b.natAbs ≤ (b * b).natAbs := by
      rw [Int.natAbs_mul]
      exact Nat.le_mul_self _
    by_cases hsquare : FitsInt64 (b * b)
    · rw [checked_of_fits hsquare, pow_halved b e]
      rcases Nat.mod_two_eq_zero_or_one e with heven | hodd
      · rw [if_neg (by omega), heven, pow_zero, mul_one]
        refine ih _ hhalf hfits fun hb => ?_
        obtain ⟨hne, hle⟩ := hacc fun h => hb (by rw [h, mul_zero])
        exact ⟨hne, hle.trans hgrown⟩
      · rw [if_pos hodd, hodd, pow_one, mul_comm (_ ^ _), ← mul_assoc]
        by_cases hproduct : FitsInt64 (acc * b)
        · rw [checked_of_fits hproduct]
          refine ih _ hhalf hproduct fun hb => ?_
          have hb : b ≠ 0 := fun h => hb (by rw [h, mul_zero])
          obtain ⟨hne, hle⟩ := hacc hb
          refine ⟨mul_ne_zero hne hb, ?_⟩
          rw [Int.natAbs_mul, Int.natAbs_mul]
          exact Nat.mul_le_mul_right _ hle
        · have hpower := not_fits_of_product hproduct (hacc (hnonzero hproduct)).2
            (Nat.pos_of_ne_zero he0)
          rw [pow_halved, hodd, pow_one, mul_comm (_ ^ _), ← mul_assoc] at hpower
          rw [checked_of_not_fits hproduct, checked_of_not_fits hpower]
          rfl
    · have hpower := not_fits_of_square hsquare (hacc (hnonzero hsquare)).1
        (by omega : 2 ≤ e)
      rw [checked_of_not_fits hsquare, checked_of_not_fits hpower]
      -- the square fails, or the product before it has failed in the same way
      split
      · by_cases hproduct : FitsInt64 (acc * b)
        · rw [checked_of_fits hproduct]
          rfl
        · rw [checked_of_not_fits hproduct]
          rfl
      · rfl

theorem power_eq (v w : Number) : power v w = Calculator.power v w := by
  cases v with
  | float => rfl
  | int b =>
      cases w with
      | float => rfl
      | int e =>
          rw [power, Calculator.power]
          refine if_congr Iff.rfl (if_congr Iff.rfl ?_ rfl) rfl
          have hone (hb : b ≠ 0) : (1 : Int) ≠ 0 ∧ (1 : Int).natAbs ≤ b.natAbs :=
            ⟨one_ne_zero, Int.natAbs_pos.mpr hb⟩
          rw [raise_eq (by decide) hone, one_mul, integerPower_eq, checked, exact]
          split <;> rfl

end Machine

/-- The two ways in which an expression takes a power. -/
inductive Tree.TakesPower (a c : Tree) : Tree → Prop
  | operator : TakesPower a c (.operation .power a c)
  | function {name : String} (h : Text.lowercase name = "pow") : TakesPower a c (.call name [a, c])

theorem call_pow {name : String} (h : Text.lowercase name = "pow") (v w : Number) :
    call name [v, w] = power v w := by
  rw [call, h]
  rfl

theorem Tree.TakesPower.value_eq {a c t : Tree} {v w : Number} (h : Tree.TakesPower a c t)
    (ha : a.value = .ok v) (hc : c.value = .ok w) : t.value = power v w := by
  cases h with
  | operator => rw [Tree.value, ha, hc]; rfl
  | function h =>
      rw [Tree.value, Tree.values, Tree.values, Tree.values, ha, hc]
      exact call_pow h v w

theorem fitsInt64_pow_of_unit {b : Int} (h : b.natAbs ≤ 1) (e : Nat) : FitsInt64 (b ^ e) := by
  have hpow : (b ^ e).natAbs ≤ 1 := by
    rw [Int.natAbs_pow]
    exact pow_le_one₀ (Nat.zero_le _) h
  unfold FitsInt64 int64Min int64Max
  omega

/-- A power of integers is exact if it fits, and an overflow if it does not. Only with an exponent
of more than 32 binary digits the powers of 0, 1 and -1, which all fit, are overflows too. The
checked products on the way to a power make no difference, nor whether it is written with the
operator or with the function. -/
theorem power_int {b e : Int} (h0 : 0 ≤ e) :
    power (.int b) (.int e) =
      (if b.natAbs ≤ 1 ∧ 2 ^ 32 ≤ e then .error .overflow
      else if FitsInt64 (b ^ e.toNat) then .ok (.int (b ^ e.toNat)) else .error .overflow) ∧
    (b.natAbs ≤ 1 → FitsInt64 (b ^ e.toNat)) ∧
    Machine.power (.int b) (.int e) = power (.int b) (.int e) ∧
    ∀ a c t : Tree, Tree.TakesPower a c t → a.value = .ok (.int b) → c.value = .ok (.int e) →
      ∀ s ts, Token.ofText s = .ok ts → Derives .expression 100 ts t →
        evaluate s = power (.int b) (.int e) := by
  refine ⟨?_, fun hb => fitsInt64_pow_of_unit hb _, Machine.power_eq _ _, ?_⟩
  · rw [power, if_pos h0, integerPower_eq, exponentMax, exact]
    by_cases hmax : e ≤ 4294967295
    · have hshort : ¬ (b.natAbs ≤ 1 ∧ 2 ^ 32 ≤ e) := by omega
      rw [if_pos hmax, if_neg hshort]
    · rw [if_neg hmax]
      by_cases hb : b.natAbs ≤ 1
      · rw [if_pos ⟨hb, by omega⟩]
      · rw [if_neg fun h => hb h.1, if_neg (not_fitsInt64_pow (by omega) (by omega))]
  · intro a c t ht ha hc s ts hts hderives
    obtain ⟨-, hvalue, -⟩ := (evaluate_eq s).2 ts hts
    rw [(hvalue t hderives).1]
    exact ht.value_eq ha hc

/-- The least integer is a power of -2, and the same power of 2 does not fit. -/
theorem power_int_least :
    evaluate "(-2) ** 63" = .ok (.int int64Min) ∧
      Machine.power (.int (-2)) (.int 63) = .ok (.int int64Min) ∧
      power (.int 2) (.int 63) = .error .overflow := by
  obtain ⟨hleast, -, hmachine, hexpression⟩ := power_int (b := -2) (e := 63) (by decide)
  obtain ⟨hgreatest, -⟩ := power_int (b := 2) (e := 63) (by decide)
  have hleast : power (.int (-2)) (.int 63) = .ok (.int int64Min) := hleast.trans (by decide)
  let t := IntegerTree.operation .power (.negative (.literal 2)) (.literal 63)
  have htext := hexpression _ _ t.toTree .operator (by with_unfolding_all rfl)
    (by with_unfolding_all rfl) "(-2) ** 63" t.tokens (by with_unfolding_all rfl)
    (t.derives.mono (by decide))
  exact ⟨htext.trans hleast, hmachine.trans hleast, hgreatest.trans (by decide)⟩

/-- Every power of one is one, but one with an exponent of 33 binary digits is refused. -/
theorem not_power_int :
    (¬ ∀ b e : Int, FitsInt64 b → FitsInt64 e → 0 ≤ e → FitsInt64 (b ^ e.toNat) →
      power (.int b) (.int e) = .ok (.int (b ^ e.toNat))) ∧
    (1 : Int) ^ (4294967296 : Int).toNat = 1 ∧
    evaluate "1 ** 4294967296" = .error .overflow ∧
    evaluate "pow(0 - 1, 4294967297)" = .error .overflow := by
  refine ⟨fun h => ?_, one_pow _, by with_unfolding_all rfl, by with_unfolding_all rfl⟩
  have hone := h 1 4294967296 (by decide) (by decide) (by decide) (by rw [one_pow]; decide)
  cases hone

end ChatAgent.Calculator
