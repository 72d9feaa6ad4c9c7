import ChatAgent.Proofs.FloatArithmetic

/-!
# Powers of ten as floats

Repeated squaring rounds every product, so a power of ten is off by at most one rounding for each
ten (`approximates_square`). It is infinite from `10 ^ 309` on, and then its reciprocal is zero
(`unpack_powerOfTen_neg`). The reciprocals of the powers that fit in 64 bits are listed
(`exists_measures_reciprocal`), those of the powers between are small (`exists_measures_tiny`).
-/

namespace ChatAgent

open Float.Model (UnpackedFloat)
open Float.Model.UnpackedFloat

namespace Float64

variable {f g : Float} {i j l m n k : ℕ}

/-- Ten, less what one rounding may take away from it. -/
def tenBelow : ℚ := 10 * (1 - 1 / 2 ^ 53)

/-- Ten, and what one rounding may add to it. -/
def tenAbove : ℚ := 10 * (1 + 1 / 2 ^ 53)

/-- The float is `10 ^ m` with at most one rounding for each ten, and `i` roundings less. -/
inductive Approximates (i m : ℕ) (f : Float) : Prop where
  | finite {x : ℚ} (h : Measures f.toModel.unpack .positive x) (hx : x < 2 ^ 1024)
      (low : tenBelow ^ m ≤ x * (1 - 1 / 2 ^ 53) ^ i)
      (high : x * (1 + 1 / 2 ^ 53) ^ i ≤ tenAbove ^ m) : Approximates i m f
  | infinity (h : f.toModel.unpack = .infinity .positive) (high : 2 ^ 1024 ≤ tenAbove ^ m) :
      Approximates i m f

theorem one_le_tenBelow_pow (m : ℕ) : 1 ≤ tenBelow ^ m :=
  one_le_pow₀ (by unfold tenBelow; norm_num)

theorem one_le_tenAbove_pow (m : ℕ) : 1 ≤ tenAbove ^ m :=
  one_le_pow₀ (by unfold tenAbove; norm_num)

theorem one_le_of_low {x : ℚ} (low : tenBelow ^ m ≤ x * (1 - 1 / 2 ^ 53) ^ i) : 1 ≤ x := by
  have hle : ((1 : ℚ) - 1 / 2 ^ 53) ^ i ≤ 1 := pow_le_one₀ (by norm_num) (by norm_num)
  have hpos : (0 : ℚ) < (1 - 1 / 2 ^ 53) ^ i := pow_pos (by norm_num) i
  have hone := (one_le_tenBelow_pow m).trans low
  have hx : 0 < x := pos_of_mul_pos_left (lt_of_lt_of_le one_pos hone) hpos.le
  exact hone.trans (mul_le_of_le_one_right hx.le hle)

theorem low_mul {x y z : ℚ} (hl : i + j = l + 1) (low : tenBelow ^ m ≤ x * (1 - 1 / 2 ^ 53) ^ i)
    (low' : tenBelow ^ n ≤ y * (1 - 1 / 2 ^ 53) ^ j) (hz : x * y * (1 - 1 / 2 ^ 53) ≤ z) :
    tenBelow ^ (m + n) ≤ z * (1 - 1 / 2 ^ 53) ^ l := by
  have hm := zero_le_one.trans (one_le_tenBelow_pow m)
  have hn := zero_le_one.trans (one_le_tenBelow_pow n)
  have hunit : (0 : ℚ) ≤ (1 - 1 / 2 ^ 53) ^ l := pow_nonneg (by norm_num) l
  calc tenBelow ^ (m + n) = tenBelow ^ m * tenBelow ^ n := pow_add _ _ _
    _ ≤ x * (1 - 1 / 2 ^ 53) ^ i * (y * (1 - 1 / 2 ^ 53) ^ j) :=
        mul_le_mul low low' hn (hm.trans low)
    _ = x * y * (1 - 1 / 2 ^ 53) ^ (i + j) := by ring
    _ = (x * y * (1 - 1 / 2 ^ 53)) * (1 - 1 / 2 ^ 53) ^ l := by
        rw [hl]
        ring
    _ ≤ z * (1 - 1 / 2 ^ 53) ^ l := mul_le_mul_of_nonneg_right hz hunit

theorem high_mul {x y z : ℚ} (hl : i + j = l + 1) (hy : 0 ≤ y)
    (high : x * (1 + 1 / 2 ^ 53) ^ i ≤ tenAbove ^ m)
    (high' : y * (1 + 1 / 2 ^ 53) ^ j ≤ tenAbove ^ n) (hz : z ≤ x * y * (1 + 1 / 2 ^ 53)) :
    z * (1 + 1 / 2 ^ 53) ^ l ≤ tenAbove ^ (m + n) := by
  have hm := zero_le_one.trans (one_le_tenAbove_pow m)
  calc z * (1 + 1 / 2 ^ 53) ^ l
      ≤ (x * y * (1 + 1 / 2 ^ 53)) * (1 + 1 / 2 ^ 53) ^ l :=
        mul_le_mul_of_nonneg_right hz (by positivity)
    _ = x * y * (1 + 1 / 2 ^ 53) ^ (i + j) := by
        rw [hl]
        ring
    _ = x * (1 + 1 / 2 ^ 53) ^ i * (y * (1 + 1 / 2 ^ 53) ^ j) := by ring
    _ ≤ tenAbove ^ m * tenAbove ^ n := mul_le_mul high high' (by positivity) hm
    _ = tenAbove ^ (m + n) := (pow_add _ _ _).symm

namespace Approximates

/-- One infinite factor makes the product infinite, as no other one is zero. -/
theorem unpack_mul_infinity (hf : f.toModel.unpack = .infinity .positive)
    (hg : Approximates j n g) : (f * g).toModel.unpack = .infinity .positive ∧
      (g * f).toModel.unpack = .infinity .positive := by
  show (Float.Model.pack (UnpackedFloat.mul .binary64 f.toModel.unpack g.toModel.unpack)).unpack =
      .infinity .positive ∧
    (Float.Model.pack (UnpackedFloat.mul .binary64 g.toModel.unpack f.toModel.unpack)).unpack =
      .infinity .positive
  rw [hf]
  cases hg with
  | infinity h =>
      rw [h]
      exact ⟨rfl, rfl⟩
  | @finite y h _ low =>
      have hy := one_le_of_low low
      generalize g.toModel.unpack = u at h
      cases h with
      | zero => exact absurd hy (by norm_num)
      | finite =>
          show (Float.Model.pack (.infinity .positive)).unpack = _ ∧
            (Float.Model.pack (.infinity .positive)).unpack = _
          exact ⟨rfl, rfl⟩

theorem mul (hf : Approximates i m f) (hg : Approximates j n g) (hl : i + j = l + 1) :
    Approximates l (m + n) (f * g) := by
  have hm := one_le_tenAbove_pow m
  have hn := one_le_tenAbove_pow n
  cases hf with
  | infinity h high =>
      refine .infinity (unpack_mul_infinity h hg).1 ?_
      rw [pow_add]
      exact high.trans (le_mul_of_one_le_right (by positivity) hn)
  | @finite x h hshort low high =>
      cases hg with
      | infinity h' high' =>
          refine .infinity (unpack_mul_infinity h' (.finite h hshort low high)).2 ?_
          rw [pow_add]
          exact high'.trans (le_mul_of_one_le_left (by positivity) hm)
      | @finite y h' _ low' high' =>
          have hx := one_le_of_low low
          have hy := one_le_of_low low'
          have hxy : 1 ≤ x * y := one_le_mul_of_one_le_of_one_le hx hy
          obtain ⟨z, hz, hreach⟩ := reaches_mul h h'
          have hlarge : (2 : ℚ) ^ (-1022 : ℤ) ≤ x * y :=
            (zpow_le_one_of_nonpos₀ one_le_two (by decide)).trans hxy
          obtain ⟨hbelow, habove⟩ := abs_le.mp (hz.relative (.inr hlarge))
          have hbelow : x * y * (1 - 1 / 2 ^ 53) ≤ z := by linarith only [hbelow]
          have habove : z ≤ x * y * (1 + 1 / 2 ^ 53) := by linarith only [habove]
          have hlow := low_mul hl low low' hbelow
          have hhigh := high_mul hl (by linarith only [hy]) high high' habove
          rw [Reaches] at hreach
          split at hreach
          · rename_i hz
            exact .finite hreach hz hlow hhigh
          · rename_i hlarge
            have hone : (1 : ℚ) ≤ (1 + 1 / 2 ^ 53) ^ l := one_le_pow₀ (by norm_num)
            have hz0 : 0 ≤ z := by linarith only [hbelow, hxy]
            refine .infinity hreach ?_
            calc (2 : ℚ) ^ 1024 ≤ z := le_of_not_gt hlarge
              _ ≤ z * (1 + 1 / 2 ^ 53) ^ l := le_mul_of_one_le_right hz0 hone
              _ ≤ tenAbove ^ (m + n) := hhigh

end Approximates

theorem approximates_square {factor result : Float} (hf : Approximates 1 m factor)
    (hr : Approximates 0 k result) :
    Approximates 0 (k + m * n) (powerOfTen.square factor result n) := by
  induction n using Nat.strongRecOn generalizing factor result m k with
  | ind n ih =>
      rw [powerOfTen.square]
      by_cases h0 : n = 0
      · rw [dif_pos h0, h0, mul_zero, add_zero]
        exact hr
      · rw [dif_neg h0]
        have hhalf : n / 2 < n := Nat.div_lt_self (Nat.pos_of_ne_zero h0) (by decide)
        have hpower : (m + m) * (n / 2) + m * (n % 2) = m * n := by
          conv_rhs => rw [← Nat.div_add_mod n 2]
          ring
        rcases Nat.mod_two_eq_zero_or_one n with heven | hodd
        · rw [if_neg (by omega), ← hpower, heven, mul_zero, add_zero]
          exact ih _ hhalf (hf.mul hf rfl) hr
        · rw [if_pos hodd, ← hpower, hodd, mul_one, add_comm _ m, ← add_assoc]
          exact ih _ hhalf (hf.mul hf rfl) (hr.mul hf rfl)

theorem measures_ten : Measures (10.0 : Float).toModel.unpack .positive 10 := by
  have hdigits : (10.0 : Float).toModel.unpack =
      .finite .positive 5629499534213120 (-49) (by decide) := by with_unfolding_all rfl
  have hvalue : (10 : ℚ) = (5629499534213120 : ℕ) * 2 ^ (-49 : ℤ) := by norm_num
  rw [hdigits, hvalue]
  exact .finite .positive ⟨by decide, by decide, by decide⟩ _

theorem measures_one : Measures (1.0 : Float).toModel.unpack .positive 1 := by
  have hdigits : (1.0 : Float).toModel.unpack =
      .finite .positive (2 ^ 52) (-52) (by decide) := by with_unfolding_all rfl
  have hvalue : (1 : ℚ) = (2 ^ 52 : ℕ) * 2 ^ (-52 : ℤ) := by norm_num
  rw [hdigits, hvalue]
  exact .finite .positive ⟨by decide, by decide, by decide⟩ _

theorem approximates_power (n : ℕ) : Approximates 0 n (powerOfTen.square 10.0 1.0 n) := by
  have hten : Approximates 1 1 10.0 :=
    .finite measures_ten (lt_of_le_two_pow (by norm_num)) (by rw [tenBelow, pow_one, pow_one])
      (by rw [tenAbove, pow_one, pow_one])
  have hone : Approximates 0 0 1.0 :=
    .finite measures_one (lt_of_le_two_pow (by norm_num)) (by rw [pow_zero, pow_zero, mul_one])
      (by rw [pow_zero, pow_zero, mul_one])
  have h := approximates_square (n := n) hten hone
  rwa [zero_add, one_mul] at h

theorem tenAbove_eq : tenAbove = (10 * (2 ^ 53 + 1) : ℕ) / (2 ^ 53 : ℕ) := by
  unfold tenAbove
  norm_num

theorem tenBelow_eq : tenBelow = (10 * (2 ^ 53 - 1) : ℕ) / (2 ^ 53 : ℕ) := by
  unfold tenBelow
  norm_num

theorem tenAbove_pow_lt (h : k ≤ 308) : tenAbove ^ k < 2 ^ 1024 := by
  have hlast : (10 * (2 ^ 53 + 1)) ^ 308 < 2 ^ 1024 * (2 ^ 53) ^ 308 := by decide +kernel
  refine lt_of_le_of_lt (pow_le_pow_right₀ ?_ h) ?_
  · unfold tenAbove
    norm_num
  · rw [tenAbove_eq, div_pow, div_lt_iff₀ (by positivity)]
    exact_mod_cast hlast

theorem le_tenBelow_pow (h : 309 ≤ k) : 2 ^ 1024 ≤ tenBelow ^ k := by
  have hfirst : 2 ^ 1024 * (2 ^ 53) ^ 309 ≤ (10 * (2 ^ 53 - 1)) ^ 309 := by decide +kernel
  refine le_trans ?_ (pow_le_pow_right₀ ?_ h)
  · rw [tenBelow_eq, div_pow, le_div_iff₀ (by positivity)]
    exact_mod_cast hfirst
  · unfold tenBelow
    norm_num

/-! ## Reciprocals -/

theorem powerOfTen_neg (h : 0 < k) :
    powerOfTen (-k) = 1.0 / powerOfTen.square 10.0 1.0 k := by
  rw [powerOfTen, if_pos (by omega), Int.natAbs_neg, Int.natAbs_natCast]

theorem unpack_powerOfTen_neg (h : 309 ≤ k) :
    (powerOfTen (-k)).toModel.unpack = .zero .positive := by
  have hone := measures_one
  rw [powerOfTen_neg (by omega)]
  show (Float.Model.pack (UnpackedFloat.div .binary64 (1.0 : Float).toModel.unpack
    (powerOfTen.square 10.0 1.0 k).toModel.unpack)).unpack = .zero .positive
  generalize (1.0 : Float).toModel.unpack = u at hone
  cases approximates_power k with
  | finite _ hx low =>
      rw [pow_zero, mul_one] at low
      exact absurd hx (not_lt_of_ge ((le_tenBelow_pow h).trans low))
  | infinity h =>
      rw [h]
      generalize hvalue : (1 : ℚ) = x at hone
      cases hone with
      | zero => exact absurd hvalue one_ne_zero
      | finite =>
          show (Float.Model.pack (.zero .positive)).unpack = .zero .positive
          rfl

/-- From `10 ^ -20` on the reciprocal of a power makes every 64-bit integer less than a half. -/
theorem exists_measures_tiny (h : 20 ≤ k) (hk : k ≤ 308) :
    ∃ x, Measures (powerOfTen (-k)).toModel.unpack .positive x ∧ 0 < x ∧ x ≤ 2 ^ (-66 : ℤ) := by
  rw [powerOfTen_neg (by omega)]
  cases approximates_power k with
  | infinity _ high => exact absurd (tenAbove_pow_lt hk) (not_lt_of_ge high)
  | @finite y hy hshort low high =>
      rw [pow_zero, mul_one] at low
      have hlarge : (2 : ℚ) ^ 66 ≤ y :=
        calc (2 : ℚ) ^ 66 ≤ tenBelow ^ 20 := by
              unfold tenBelow
              norm_num
          _ ≤ tenBelow ^ k := pow_le_pow_right₀ (by unfold tenBelow; norm_num) h
          _ ≤ y := low
      have hpos : 0 < y := lt_of_lt_of_le (by positivity) hlarge
      obtain ⟨x, hx, hreach⟩ := reaches_div measures_one hy hpos.ne'
      have hsmall : 1 / y ≤ (1 : ℕ) * 2 ^ (-66 : ℤ) := by
        have hpower : (2 : ℚ) ^ (-66 : ℤ) = 1 / 2 ^ 66 := by norm_num
        rw [Nat.cast_one, one_mul, hpower]
        exact one_div_le_one_div_of_le (by positivity) hlarge
      have hleast : (1 : ℕ) * 2 ^ (-1074 : ℤ) ≤ 1 / y :=
        calc ((1 : ℕ) : ℚ) * 2 ^ (-1074 : ℤ) ≤ 2 ^ (-(1024 : ℕ) : ℤ) := by
              rw [Nat.cast_one, one_mul]
              exact zpow_le_zpow_right₀ one_le_two (by decide)
          _ = 1 / 2 ^ 1024 := by rw [zpow_neg, zpow_natCast, one_div]
          _ ≤ 1 / y := one_div_le_one_div_of_le hpos hshort.le
      have hhigh := hx.le_of_le (by decide) (by decide) hsmall
      have hlow := hx.ge_of_ge (by decide) le_rfl hleast
      rw [Nat.cast_one, one_mul] at hlow hhigh
      refine ⟨x, hreach.measures (lt_of_le_two_pow (hhigh.trans (by norm_num))),
        lt_of_lt_of_le (by positivity) hlow, hhigh⟩

/-- The powers whose reciprocals are further off than the others. -/
def farReciprocals : List ℕ := [5, 9, 11, 15, 17, 18]

/-- How much `m * 2 ^ e` is above `10 ^ -k`, counted in `2 ^ e * 10 ^ -k`. -/
def excess (k m : ℕ) (e : ℤ) : ℤ := m * 10 ^ k - 2 ^ (-e).toNat

/-- Whether the float is in canonical form and as close to `10 ^ -k` as the table needs. -/
def isReciprocal (k : ℕ) : UnpackedFloat → Bool
  | .finite .positive m e _ =>
    (2 ^ 52 ≤ m ∧ m < 2 ^ 53 ∧ -1074 ≤ e ∧ e ≤ 0) ∧
      2 ^ 55 * (excess k m e).natAbs ≤ 3 * 2 ^ (-e).toNat ∧
      (k ∈ farReciprocals ∨ -(9 * 2 ^ (-e).toNat) ≤ 10 * 2 ^ 54 * excess k m e ∧
        2 ^ 54 * excess k m e ≤ 2 ^ (-e).toNat)
  | _ => false

theorem isReciprocal_powerOfTen :
    ∀ k ∈ List.range' 1 19, isReciprocal k (powerOfTen (-k)).toModel.unpack := by
  decide +kernel

theorem exists_measures_reciprocal (h : 0 < k) (hk : k ≤ 19) :
    ∃ δ : ℚ, Measures (powerOfTen (-k)).toModel.unpack .positive ((1 + δ) / 10 ^ k) ∧
      |δ| ≤ 3 / 2 ^ 55 ∧
      (k ∉ farReciprocals → -(9 / 10) / 2 ^ 54 ≤ δ ∧ δ ≤ 1 / 2 ^ 54) := by
  have htable := isReciprocal_powerOfTen k (List.mem_range'_1.mpr ⟨h, by omega⟩)
  generalize (powerOfTen (-k)).toModel.unpack = u at htable
  unfold isReciprocal at htable
  split at htable
  · rename_i m e hpos
    obtain ⟨⟨hlow, hhigh, hleast, he⟩, hclose, htight⟩ := of_decide_eq_true htable
    obtain ⟨p, rfl⟩ : ∃ p : ℕ, e = -p := ⟨(-e).toNat, by omega⟩
    rw [neg_neg, Int.toNat_natCast] at hclose htight
    have hunit : (0 : ℚ) < 2 ^ p := by positivity
    have hten : (0 : ℚ) < 10 ^ k := by positivity
    refine ⟨excess k m (-p) / 2 ^ p, ?_, ?_, fun hk => ⟨?_, ?_⟩⟩
    · have hvalue : (1 + excess k m (-p) / 2 ^ p) / 10 ^ k = (m : ℚ) * 2 ^ (-p : ℤ) := by
        rw [excess, neg_neg, Int.toNat_natCast, zpow_neg, zpow_natCast]
        push_cast
        field_simp
        ring
      rw [hvalue]
      exact .finite .positive ⟨hhigh, hleast, .inr hlow⟩ hpos
    · rw [abs_div, abs_of_pos hunit, div_le_div_iff₀ hunit (by norm_num)]
      have hclose : (2 : ℚ) ^ 55 * (excess k m (-p)).natAbs ≤ 3 * 2 ^ p := by exact_mod_cast hclose
      rw [Nat.cast_natAbs, Int.cast_abs] at hclose
      linarith
    · have hbelow := (htight.resolve_left hk).1
      have hbelow : -(9 * 2 ^ p) ≤ 10 * 2 ^ 54 * (excess k m (-p) : ℚ) := by exact_mod_cast hbelow
      rw [div_le_div_iff₀ (by norm_num) hunit]
      linarith
    · have habove := (htight.resolve_left hk).2
      have habove : 2 ^ 54 * (excess k m (-p) : ℚ) ≤ 2 ^ p := by exact_mod_cast habove
      rw [div_le_div_iff₀ hunit (by norm_num)]
      linarith
  · cases htable

end Float64

end ChatAgent
