import ChatAgent.Proofs.IntegerTree
import ChatAgent.Proofs.UncheckedArithmetic

/-!
# Division with a remainder

Quotients of integers are rounded down, and what is left over has the sign of the divisor. Both fit
in 64 bits but for one quotient, that of the least integer by -1 (`floorDivide_modulo`). Its
remainder is refused as well, though it is zero (`not_floorDivide_modulo`).
-/

namespace ChatAgent.Calculator

open Machine (HasQuotient)

variable {x y : Int}

/-- What is left over lies between zero and the divisor. -/
theorem fmod_between (hy : y ≠ 0) :
    0 < y ∧ 0 ≤ Int.fmod x y ∧ Int.fmod x y < y ∨ y < 0 ∧ y < Int.fmod x y ∧ Int.fmod x y ≤ 0 := by
  rcases Int.lt_or_gt_of_ne hy with h | h
  · have hneg := Int.neg_fmod_neg (-x) (-y)
    rw [Int.neg_neg, Int.neg_neg] at hneg
    have hnonneg := Int.fmod_nonneg_of_pos (-x) (b := -y) (by omega)
    have hlt := Int.fmod_lt_of_pos (-x) (b := -y) (by omega)
    omega
  · exact .inl ⟨h, Int.fmod_nonneg_of_pos x h, Int.fmod_lt_of_pos x h⟩

theorem fitsInt64_fdiv_iff (hx : FitsInt64 x) (hy : y ≠ 0) :
    FitsInt64 (Int.fdiv x y) ↔ ¬ (x = int64Min ∧ y = -1) := by
  constructor
  · rintro h ⟨rfl, rfl⟩
    exact absurd h (by decide)
  · exact fun h => Machine.fitsInt64_fdiv hx ⟨hy, h⟩

theorem floorDivide_int (hy : y ≠ 0) :
    floorDivide (.int x) (.int y) =
      if FitsInt64 (Int.fdiv x y) then .ok (.int (Int.fdiv x y)) else .error .overflow := by
  simp [floorDivide, isZero, hy, exact]

theorem modulo_int (hy : FitsInt64 y) (h0 : y ≠ 0) :
    modulo (.int x) (.int y) =
      if x = int64Min ∧ y = -1 then .error .overflow else .ok (.int (Int.fmod x y)) := by
  simp only [modulo, isZero, beq_iff_eq, h0, if_false]
  split
  · rfl
  · rename_i h
    exact if_pos (Machine.fitsInt64_fmod hy ⟨h0, h⟩)

/-- The quotient is rounded down, if it fits; the corrections on the way are never out of range.
What is left over always fits, is less than the divisor and has its sign, and is given unless the
quotient does not fit. -/
theorem floorDivide_modulo (hx : FitsInt64 x) (hy : FitsInt64 y) (h0 : y ≠ 0) :
    let q := ⌊(x / y : ℚ)⌋
    let r := x - y * q
    floorDivide (.int x) (.int y) =
      (if FitsInt64 q then .ok (.int q) else .error .overflow) ∧
    modulo (.int x) (.int y) =
      (if x = int64Min ∧ y = -1 then .error .overflow else .ok (.int r)) ∧
    Machine.floorDivide (.int x) (.int y) = some (floorDivide (.int x) (.int y)) ∧
    Machine.modulo (.int x) (.int y) = some (modulo (.int x) (.int y)) ∧
    (FitsInt64 q ↔ ¬ (x = int64Min ∧ y = -1)) ∧
    FitsInt64 r ∧ r.natAbs < y.natAbs ∧ (r = 0 ∨ r.sign = y.sign) ∧
    ∀ v w, floorDivide (.int x) (.int y) = .ok (.int v) →
      modulo (.int x) (.int y) = .ok (.int w) → y * v + w = x := by
  intro q r
  have hq : q = Int.fdiv x y := (fdiv_eq_floor x y).symm
  have hr : r = Int.fmod x y := by rw [Int.fmod_def, ← hq]
  rw [hq, hr]
  have hbetween := fmod_between (x := x) h0
  refine ⟨floorDivide_int h0, modulo_int hy h0, Machine.floorDivide_eq hx, Machine.modulo_eq hy,
    fitsInt64_fdiv_iff hx h0, ?_, ?_, ?_, fun v w hv hw => ?_⟩
  · unfold FitsInt64 int64Min int64Max at *
    omega
  · omega
  · rcases hbetween with ⟨hy', hr', -⟩ | ⟨hy', -, hr'⟩
    · rw [Int.sign_eq_one_of_pos hy', Int.sign_eq_one_iff_pos]
      omega
    · rw [Int.sign_eq_neg_one_of_neg hy', Int.sign_eq_neg_one_iff_neg]
      omega
  · rw [floorDivide_int h0] at hv
    rw [modulo_int hy h0] at hw
    split at hv
    · split at hw
      · cases hw
      · cases hv
        cases hw
        exact Int.mul_fdiv_add_fmod x y
    · cases hv

theorem floorDivide_modulo_least :
    floorDivide (.int int64Min) (.int 7) = .ok (.int (-1317624576693539402)) ∧
      modulo (.int int64Min) (.int 7) = .ok (.int 6) ∧ 7 * -1317624576693539402 + 6 = int64Min := by
  obtain ⟨-, -, -, -, -, -, -, -, hlaw⟩ :=
    floorDivide_modulo (x := int64Min) (y := 7) (by decide) (by decide) (by decide)
  exact ⟨rfl, rfl, hlaw _ _ rfl rfl⟩

/-- The least integer leaves nothing over when it is divided by -1, but that is refused. -/
theorem not_floorDivide_modulo :
    (¬ ∀ x y : Int, FitsInt64 x → FitsInt64 y → y ≠ 0 →
      modulo (.int x) (.int y) = .ok (.int (x - y * ⌊(x / y : ℚ)⌋))) ∧
    int64Min - -1 * ⌊((int64Min : Int) / (-1 : Int) : ℚ)⌋ = 0 ∧
    evaluate "(-9223372036854775807 - 1) % -1" = .error .overflow := by
  refine ⟨fun h => ?_, ?_, ?_⟩
  · have hleast := h int64Min (-1) (by decide) (by decide) (by decide)
    cases hleast
  · rw [← fdiv_eq_floor]
    decide
  · with_unfolding_all rfl

end ChatAgent.Calculator
