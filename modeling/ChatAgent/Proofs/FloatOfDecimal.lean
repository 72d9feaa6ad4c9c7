import ChatAgent.Proofs.FloatArithmetic

/-!
# Decimals as floats

A decimal is read as the nearest float, of two the even one (`nearEven_ofScientific`). One that is
short enough is a product or a quotient of two floats that are exact; for any other all of its
digits are used.
-/

namespace ChatAgent

open Float.Model (Format UnpackedFloat)
open Float.Model.UnpackedFloat

variable {m k : ℕ} {e : ℤ}

/-! ## Short decimals -/

theorem toFloat_toUInt64 (h : m < 2 ^ 53) :
    m.toUInt64.toFloat = Binary.toFloat ⟨false, m, 0⟩ := by
  have hword : m.toUInt64.toNat = m := Nat.mod_eq_of_lt (by omega)
  show Float.ofModel (.pack (.normalize .binary64 m.toUInt64.toNat 0 .positive)) = _
  rw [hword]
  rcases Nat.eq_zero_or_pos m with rfl | hpos
  · rfl
  · have hcompare : compare (m : ℤ) 0 = .gt := Int.compare_eq_gt.mpr (by omega)
    simp only [UnpackedFloat.normalize, hcompare, Int.toNat_natCast, Binary.toFloat,
      if_neg hpos.ne']
    rfl

/-- Whether the float is in canonical form and is `10 ^ k`. -/
def isPowerOfTen (k : ℕ) : UnpackedFloat → Bool
  | .finite .positive m e _ =>
    2 ^ 52 ≤ m ∧ m < 2 ^ 53 ∧ -1074 ≤ e ∧ m * 2 ^ e.toNat = 10 ^ k * 2 ^ (-e).toNat
  | _ => false

theorem isPowerOfTen_exactlyRepresentable :
    ∀ k : Fin 23, isPowerOfTen k (Float.exactlyRepresentablePowersOfTen[k]).toModel.unpack := by
  decide +kernel

theorem measures_exactlyRepresentable (k : Fin 23) :
    Measures (Float.exactlyRepresentablePowersOfTen[k]).toModel.unpack .positive (10 ^ k.val) := by
  have htable := isPowerOfTen_exactlyRepresentable k
  generalize (Float.exactlyRepresentablePowersOfTen[k]).toModel.unpack = u at htable
  unfold isPowerOfTen at htable
  split at htable
  · rename_i m e hpos
    obtain ⟨hlow, hhigh, hleast, hvalue⟩ := of_decide_eq_true htable
    have hvalue : (m : ℚ) * 2 ^ e.toNat = 10 ^ k.val * 2 ^ (-e).toNat := by exact_mod_cast hvalue
    have hpower : (10 : ℚ) ^ k.val = m * 2 ^ e := by
      have hsplit : e = (e.toNat : ℤ) - ((-e).toNat : ℤ) := by omega
      rw [hsplit, zpow_sub₀ two_ne_zero, zpow_natCast, zpow_natCast, ← mul_div_assoc, hvalue,
        mul_div_cancel_right₀ _ (by positivity)]
    rw [hpower]
    exact .finite .positive ⟨hhigh, hleast, .inr hlow⟩ hpos
  · cases htable

theorem nearEven_ofScientific_short (hm : m < 2 ^ 53) (he : e.natAbs ≤ 22) :
    ∃ u z, Float.ofScientific m (e < 0) e.natAbs = .ofModel (.pack u) ∧
      NearEven (m * 10 ^ e) z ∧ Measures u .positive z := by
  have hdigits : Measures m.toUInt64.toFloat.toModel.unpack .positive m := by
    rw [toFloat_toUInt64 hm]
    exact measures_toFloat hm
  have hpower := measures_exactlyRepresentable ⟨e.natAbs, by omega⟩
  dsimp only at hpower
  unfold Float.ofScientific
  rw [dif_pos ⟨hm, he⟩]
  by_cases hneg : e < 0
  · have hvalue : (m : ℚ) / 10 ^ e.natAbs = m * 10 ^ e := by
      have he : e = -(e.natAbs : ℤ) := by omega
      nth_rewrite 2 [he]
      rw [zpow_neg, zpow_natCast, div_eq_mul_inv]
    obtain ⟨z, hz, hround⟩ := hdigits.nearEven_div hpower (by positivity)
    rw [hvalue] at hz
    refine ⟨_, z, ?_, hz, hround⟩
    rw [if_pos (decide_eq_true hneg)]
    rfl
  · have hvalue : (m : ℚ) * 10 ^ e.natAbs = m * 10 ^ e := by
      have he : e = (e.natAbs : ℤ) := by omega
      nth_rewrite 2 [he]
      rw [zpow_natCast]
    obtain ⟨z, hz, hround⟩ := hdigits.nearEven_mul hpower
    rw [hvalue] at hz
    refine ⟨_, z, ?_, hz, hround⟩
    rw [if_neg (by simpa using hneg)]
    rfl

/-! ## All decimals -/

/-- The digits get so many zeros behind them that no product lacks any. -/
theorem nearEven_mul_power (hm : 0 < m) (k : ℕ) (h : 0 < m <<< 53) (h' : 0 < 10 ^ k) :
    ∃ z, NearEven (m * 10 ^ (k : ℤ)) z ∧
      Measures (mul .binary64 (.finite .positive (m <<< 53) (-53) h)
        (.finite .positive (10 ^ k) 0 h')) .positive z := by
  have hvalue : ((m <<< 53 : ℕ) : ℚ) * 2 ^ (-53 : ℤ) * ((10 ^ k : ℕ) * 2 ^ (0 : ℤ)) =
      m * 10 ^ (k : ℤ) := by
    rw [Nat.shiftLeft_eq, zpow_zero, zpow_natCast]
    push_cast
    norm_num
    ring
  have hlong : 52 ≤ (m <<< 53 * 10 ^ k).log2 := by
    rw [Nat.shiftLeft_eq]
    refine (Nat.le_log2 (by positivity)).mpr ?_
    calc 2 ^ 52 ≤ 1 * 2 ^ 53 * 1 := by decide
      _ ≤ m * 2 ^ 53 * 10 ^ k := Nat.mul_le_mul (Nat.mul_le_mul_right _ hm) h'
  have hmul := Measures.nearEven_mul_finite .positive .positive (e := -53) (i := 0) h h'
    (by omega)
  rw [hvalue] at hmul
  exact hmul

theorem nearEven_div_power (hm : 0 < m) (k : ℕ) (h' : 0 < 10 ^ k) :
    ∃ z, NearEven (m * 10 ^ (-k : ℤ)) z ∧
      Measures (div .binary64 (.finite .positive m 0 hm) (.finite .positive (10 ^ k) 0 h'))
        .positive z := by
  have hvalue : (m * 2 ^ (0 : ℤ) / ((10 ^ k : ℕ) * 2 ^ (0 : ℤ)) : ℚ) = m * 10 ^ (-k : ℤ) := by
    rw [zpow_zero, zpow_neg, zpow_natCast]
    push_cast
    field_simp
  have hdiv := Measures.nearEven_div_finite .positive .positive 0 0 hm h'
  rw [hvalue] at hdiv
  exact hdiv

theorem tiny_of_small_exponent (he : e < -(2048 + (m.log2 : ℤ))) :
    (m : ℚ) * 10 ^ e < 2 ^ (-1075 : ℤ) := by
  have hdigits : (m : ℚ) < 2 ^ (m.log2 + 1) := by exact_mod_cast Nat.lt_log2_self
  have hten : (10 : ℚ) ^ e ≤ 2 ^ e := by
    obtain ⟨k, rfl⟩ : ∃ k : ℕ, e = -k := ⟨e.natAbs, by omega⟩
    rw [zpow_neg, zpow_neg, zpow_natCast, zpow_natCast]
    exact inv_anti₀ (by positivity) (pow_le_pow_left₀ (by norm_num) (by norm_num) k)
  calc (m : ℚ) * 10 ^ e ≤ m * 2 ^ e := mul_le_mul_of_nonneg_left hten (Nat.cast_nonneg m)
    _ < 2 ^ (m.log2 + 1) * 2 ^ e := mul_lt_mul_of_pos_right hdigits (by positivity)
    _ = 2 ^ ((m.log2 + 1 : ℕ) + e : ℤ) := by rw [zpow_add₀ two_ne_zero, zpow_natCast]
    _ ≤ 2 ^ (-1075 : ℤ) := zpow_le_zpow_right₀ one_le_two (by omega)

theorem exponent_le_of_lt (hm : m ≠ 0) (hx : (m : ℚ) * 10 ^ e < 2 ^ 1024) : e ≤ 2048 := by
  by_contra hlarge
  have hone : (1 : ℚ) ≤ m := by exact_mod_cast Nat.pos_of_ne_zero hm
  have hten : (2 : ℚ) ^ 1024 ≤ 10 ^ e :=
    calc (2 : ℚ) ^ 1024 ≤ 10 ^ 1024 := pow_le_pow_left₀ (by norm_num) (by norm_num) _
      _ = 10 ^ (1024 : ℤ) := by rw [← zpow_natCast]; rfl
      _ ≤ 10 ^ e := zpow_le_zpow_right₀ (by norm_num) (by omega)
  have hpos : (0 : ℚ) ≤ 10 ^ e := by positivity
  exact absurd (hten.trans (le_mul_of_one_le_left hpos hone)) (not_le_of_gt hx)

/-- The exponents that are not computed with are those of numbers that are out of range. -/
theorem nearEven_ofScientific_long (hx : (m : ℚ) * 10 ^ e < 2 ^ 1024) :
    ∃ z, NearEven (m * 10 ^ e) z ∧ Measures (ofScientific .binary64 m e) .positive z := by
  have hbits : (2 : ℤ) ^ Format.binary64.exponentBits = 2048 := rfl
  unfold ofScientific
  rw [hbits]
  split
  · rename_i hm
    rw [hm, Nat.cast_zero, zero_mul]
    exact ⟨0, .zero, .zero .positive⟩
  rename_i hm
  have hle := exponent_le_of_lt hm hx
  rw [if_neg (by omega)]
  split
  · rename_i hsmall
    exact ⟨0, .zero_of_tiny (by positivity) (tiny_of_small_exponent hsmall), .zero .positive⟩
  split
  · rename_i hnonneg
    obtain ⟨k, rfl⟩ := Int.eq_ofNat_of_zero_le hnonneg
    exact nearEven_mul_power (Nat.pos_of_ne_zero hm) k _ _
  · rename_i hneg
    obtain ⟨k, rfl⟩ : ∃ k : ℕ, e = -k := ⟨e.natAbs, by omega⟩
    simp only [neg_neg, Int.toNat_natCast]
    exact nearEven_div_power _ k _

theorem nearEven_ofScientific (hx : (m : ℚ) * 10 ^ e < 2 ^ 1024) :
    ∃ u z, Float.ofScientific m (e < 0) e.natAbs = .ofModel (.pack u) ∧
      NearEven (m * 10 ^ e) z ∧ Measures u .positive z := by
  by_cases hshort : m < 2 ^ 53 ∧ e.natAbs ≤ 22
  · exact nearEven_ofScientific_short hshort.1 hshort.2
  · obtain ⟨z, hz, hround⟩ := nearEven_ofScientific_long hx
    have he : (if decide (e < 0) then Int.negOfNat e.natAbs else Int.ofNat e.natAbs) = e := by
      split
      · rename_i hneg
        have := of_decide_eq_true hneg
        rw [Int.negOfNat_eq]
        show -(e.natAbs : ℤ) = e
        omega
      · rename_i hneg
        rw [decide_eq_true_iff] at hneg
        exact Int.natAbs_of_nonneg (Int.not_lt.mp hneg)
    refine ⟨_, z, ?_, hz, hround⟩
    unfold Float.ofScientific
    rw [dif_neg hshort]
    dsimp only
    rw [he]
    rfl

end ChatAgent
