import Mathlib
import ChatAgent.Number.Binary

/-!
# Rounding to the nearest float

A float measures a rational number (`Measures`). What operations on floats round is measured with
its first 53 binary digits, the last of them rounded to the nearer, of two to the even one
(`NearEven`, `nearEven_roundWithAccuracy`); often it is enough that it is near (`Near`). Rounding
to that many digits keeps the order of what needs no more digits (`Near.le_of_le`,
`Near.ge_of_ge`), and finds it again from close by (`Near.eq_of_close`).
-/

namespace ChatAgent

open Float.Model (Format totalExponent UnpackedFloat)
open Float.Model.UnpackedFloat

/-! ## Digits that are left out -/

/-- Of a number the digits before the point are kept, the first one behind it, and whether there is
a one behind that. -/
def Leads (em : ExtendedMantissa) (x : ℚ) : Prop :=
  match em.roundBit, em.stickyBit with
  | false, false => x = em.mantissa
  | false, true => em.mantissa < x ∧ x < em.mantissa + 1 / 2
  | true, false => x = em.mantissa + 1 / 2
  | true, true => em.mantissa + 1 / 2 < x ∧ x < em.mantissa + 1

namespace Leads

variable {em : ExtendedMantissa} {x : ℚ}

theorem bounds (h : Leads em x) : em.mantissa ≤ x ∧ x < em.mantissa + 1 := by
  obtain ⟨m, half, more⟩ := em
  cases half <;> cases more <;> simp only [Leads] at h ⊢ <;> constructor <;> linarith

theorem shiftRightOne (h : Leads em x) : Leads em.shiftRightOne (x / 2) := by
  obtain ⟨m, half, more⟩ := em
  have hm : (m : ℚ) = 2 * (m / 2 : ℕ) + (m % 2 : ℕ) := by
    exact_mod_cast (Nat.div_add_mod m 2).symm
  rcases Nat.mod_two_eq_zero_or_one m with hbit | hbit <;> rw [hbit] at hm <;> push_cast at hm <;>
    cases half <;> cases more <;>
    simp [Leads, ExtendedMantissa.shiftRightOne, hbit] at h ⊢ <;>
    first | linarith | constructor <;> linarith

theorem shiftRight (h : Leads em x) (k : ℕ) : Leads (em >>> k) (x / 2 ^ k) := by
  induction k with
  | zero =>
      rw [pow_zero, div_one]
      exact h
  | succ k ih =>
      rw [pow_succ, ← div_div]
      exact ih.shiftRightOne

/-- The digits behind the point are rounded to the nearer integer. -/
theorem roundedMantissa (h : Leads em x) : |em.roundedMantissa - x| ≤ 1 / 2 := by
  obtain ⟨m, half, more⟩ := em
  rw [abs_le]
  cases half <;> cases more <;>
    simp only [Leads, ExtendedMantissa.roundedMantissa, ExtendedMantissa.accuracy,
      Accuracy.roundToNearestEven] at h ⊢
  · constructor <;> linarith
  · constructor <;> linarith
  · rcases Nat.mod_two_eq_zero_or_one m with hbit | hbit <;> rw [hbit] <;> push_cast <;>
      constructor <;> linarith
  · push_cast
    constructor <;> linarith

/-- Halfway between two integers the even one is taken. -/
theorem even_roundedMantissa (h : Leads em x) (htie : |em.roundedMantissa - x| = 1 / 2) :
    Even em.roundedMantissa := by
  obtain ⟨m, half, more⟩ := em
  rw [abs_eq (by norm_num)] at htie
  cases half <;> cases more <;>
    simp only [Leads, ExtendedMantissa.roundedMantissa, ExtendedMantissa.accuracy,
      Accuracy.roundToNearestEven] at h htie ⊢
  · rcases htie with htie | htie <;> linarith
  · rcases htie with htie | htie <;> linarith
  · rw [Nat.even_iff]
    omega
  · push_cast at htie
    rcases htie with htie | htie <;> linarith

theorem exact (m : ℕ) : Leads (.ofMantissaAndAccuracy m .exact) m := rfl

theorem fraction (m : ℕ) {num den : ℕ} (h : num < den) :
    Leads (.ofMantissaAndAccuracy m (accuracyOfFraction num den)) (m + num / den) := by
  have hden : (0 : ℚ) < den := by exact_mod_cast Nat.zero_lt_of_lt h
  have hlt : (num : ℚ) < den := by exact_mod_cast h
  unfold accuracyOfFraction
  split
  · rename_i hzero
    simp [Leads, ExtendedMantissa.ofMantissaAndAccuracy, hzero]
  · rename_i hne
    have hpos : (0 : ℚ) < num := by exact_mod_cast Nat.pos_of_ne_zero hne
    rcases Nat.lt_trichotomy (2 * num) den with hcmp | hcmp | hcmp
    · have hhalf : (2 * num : ℚ) < den := by exact_mod_cast hcmp
      have hlow := div_pos hpos hden
      have hhigh : (num : ℚ) / den < 1 / 2 := by
        rw [div_lt_div_iff₀ hden two_pos]
        linarith
      rw [Nat.compare_eq_lt.mpr hcmp]
      show (m : ℚ) < m + num / den ∧ (m + num / den : ℚ) < m + 1 / 2
      constructor <;> linarith
    · have hhalf : (2 * num : ℚ) = den := by exact_mod_cast hcmp
      have hequal : (num : ℚ) / den = 1 / 2 := by
        rw [div_eq_div_iff hden.ne' two_ne_zero]
        linarith
      rw [Nat.compare_eq_eq.mpr hcmp, hequal]
      rfl
    · have hhalf : (den : ℚ) < 2 * num := by exact_mod_cast hcmp
      have hlow : 1 / 2 < (num : ℚ) / den := by
        rw [div_lt_div_iff₀ two_pos hden]
        linarith
      have hhigh : (num : ℚ) / den < 1 := (div_lt_one hden).mpr hlt
      rw [Nat.compare_eq_gt.mpr hcmp]
      show (m + 1 / 2 : ℚ) < m + num / den ∧ (m + num / den : ℚ) < m + 1
      constructor <;> linarith

end Leads

/-! ## Floats in canonical form -/

/-- At most 53 digits, of which the first is a one unless the last one counts as little as it can. -/
structure Canonical (m : ℕ) (e : ℤ) : Prop where
  short : m < 2 ^ 53
  least : -1074 ≤ e
  leading : e = -1074 ∨ 2 ^ 52 ≤ m

/-- The float is in canonical form, and has a sign and a magnitude. -/
inductive Measures : UnpackedFloat → Sign → ℚ → Prop where
  | zero (s : Sign) : Measures (.zero s) s 0
  | finite (s : Sign) {m : ℕ} {e : ℤ} (h : Canonical m e) (hpos : 0 < m) :
      Measures (.finite s m e hpos) s (m * 2 ^ e)

/-- The second number is the first one with 53 binary digits, the last of them rounded. -/
inductive Near (x : ℚ) : ℚ → Prop where
  | intro {m : ℕ} {e : ℤ} (least : -1074 ≤ e) (leading : e = -1074 ∨ 2 ^ 52 * 2 ^ e ≤ x)
      (short : x < 2 ^ 53 * 2 ^ e) (close : |m - x / 2 ^ e| ≤ 1 / 2) : Near x (m * 2 ^ e)

/-- Besides, of two digits that are equally near the even one is taken. -/
inductive NearEven (x : ℚ) : ℚ → Prop where
  | intro {m : ℕ} {e : ℤ} (least : -1074 ≤ e) (leading : e = -1074 ∨ 2 ^ 52 * 2 ^ e ≤ x)
      (short : x < 2 ^ 53 * 2 ^ e) (close : |m - x / 2 ^ e| ≤ 1 / 2)
      (tie : |m - x / 2 ^ e| = 1 / 2 → Even m) : NearEven x (m * 2 ^ e)

theorem NearEven.near {x z : ℚ} (h : NearEven x z) : Near x z := by
  cases h with
  | intro least leading short close tie => exact .intro least leading short close

/-! ## Rounding -/

theorem le_of_close {n m : ℕ} {x : ℚ} (h : |n - x| ≤ 1 / 2) (hx : x ≤ m) : n ≤ m := by
  have hclose := (abs_le.mp h).2
  by_contra hlt
  have hnext : (m : ℚ) + 1 ≤ n := by exact_mod_cast Nat.lt_of_not_le hlt
  linarith

theorem ge_of_close {n m : ℕ} {x : ℚ} (h : |n - x| ≤ 1 / 2) (hx : m ≤ x) : m ≤ n := by
  have hclose := (abs_le.mp h).1
  by_contra hlt
  have hnext : (n : ℚ) + 1 ≤ m := by exact_mod_cast Nat.lt_of_not_le hlt
  linarith

theorem log2_mul_two_pow {n : ℕ} (h : n ≠ 0) (j : ℕ) : (n * 2 ^ j).log2 = n.log2 + j := by
  induction j with
  | zero => rw [Nat.pow_zero, Nat.mul_one, Nat.add_zero]
  | succ j ih =>
    have hne : n * 2 ^ j ≠ 0 := Nat.mul_ne_zero h (Nat.two_pow_pos j).ne'
    rw [Nat.pow_succ, ← Nat.mul_assoc, Nat.mul_comm _ 2, Nat.log2_two_mul hne, ih, Nat.add_assoc]

theorem targetExponent_totalExponent (m : ℕ) (e : ℤ) :
    Format.binary64.targetExponent (totalExponent m e) = max (m.log2 + e - 52) (-1074) := by
  simp only [Format.targetExponent, totalExponent, Format.mantissaBits, Format.minExponent]
  omega

theorem shiftToTargetExponent_of_le {m k : ℕ} {e e' : ℤ} (acc : Accuracy)
    (he : max (m.log2 + e - 52) (-1074) = e') (hk : e + k = e') :
    shiftToTargetExponent .binary64 m e acc =
      (ExtendedMantissa.ofMantissaAndAccuracy m acc >>> k, e') := by
  have hamount : (e' - e).toNat = k := by omega
  simp only [shiftToTargetExponent, targetExponent_totalExponent, he, shiftToExponent, hamount, hk]

/-- Rounding may make the digits a power of two, with one digit more; then they are shifted again. -/
theorem measures_roundWithAccuracy (s : Sign) {m : ℕ} {e e' : ℤ} {acc : Accuracy}
    {em : ExtendedMantissa} (hfirst : shiftToTargetExponent .binary64 m e acc = (em, e'))
    (hle : em.roundedMantissa ≤ 2 ^ 53) (least : -1074 ≤ e')
    (leading : e' = -1074 ∨ 2 ^ 52 ≤ em.roundedMantissa) :
    Measures (roundWithAccuracy .binary64 s m e acc) s (em.roundedMantissa * 2 ^ e') := by
  unfold roundWithAccuracy
  rw [hfirst]
  dsimp only
  generalize em.roundedMantissa = r at *
  rcases Nat.lt_or_eq_of_le hle with hlt | rfl
  · have hlog : max (r.log2 + e' - 52) (-1074) = e' := by
      rcases Nat.eq_zero_or_pos r with rfl | hpos
      · rw [Nat.log2_zero]
        omega
      · have hshort : r.log2 < 53 := (Nat.log2_lt hpos.ne').mpr hlt
        have hlong (h : 2 ^ 52 ≤ r) : r.log2 = 52 :=
          (Nat.log2_eq_iff hpos.ne').mpr ⟨h, hlt⟩
        omega
    rw [shiftToTargetExponent_of_le (k := 0) .exact hlog (Int.add_zero _)]
    by_cases hzero : r = 0
    · subst hzero
      rw [Nat.cast_zero, zero_mul]
      exact .zero s
    · have hne : (ExtendedMantissa.ofMantissaAndAccuracy r .exact >>> 0).mantissa ≠ 0 := hzero
      rw [dif_neg hne]
      exact .finite s ⟨hlt, least, leading⟩ _
  · have hlog : max (((2 ^ 53 : ℕ).log2 : ℤ) + e' - 52) (-1074) = e' + 1 := by
      rw [Nat.log2_two_pow]
      omega
    have hvalue : ((2 ^ 53 : ℕ) : ℚ) * 2 ^ e' = ((2 ^ 52 : ℕ) : ℚ) * 2 ^ (e' + 1) := by
      rw [zpow_add_one₀ two_ne_zero]
      push_cast
      ring
    rw [shiftToTargetExponent_of_le (k := 1) .exact hlog rfl, hvalue]
    exact .finite s ⟨by decide, by omega, .inr (Nat.le_refl _)⟩ (Nat.two_pow_pos 52)

theorem nearEven_roundWithAccuracy (s : Sign) {m : ℕ} {e : ℤ} {acc : Accuracy} {x : ℚ}
    (h : Leads (.ofMantissaAndAccuracy m acc) (x / 2 ^ e))
    (hplace : e ≤ max (m.log2 + e - 52) (-1074)) :
    ∃ z, NearEven x z ∧ Measures (roundWithAccuracy .binary64 s m e acc) s z := by
  obtain ⟨k, hk⟩ := Int.le.dest hplace
  generalize he : max (m.log2 + e - 52) (-1074) = e' at hk
  have hfirst := shiftToTargetExponent_of_le acc he hk
  have hshifted : Leads (ExtendedMantissa.ofMantissaAndAccuracy m acc >>> k) (x / 2 ^ e') := by
    have hpow : (2 : ℚ) ^ e' = 2 ^ e * 2 ^ k := by
      rw [← hk, zpow_add₀ two_ne_zero, zpow_natCast]
    rw [hpow, ← div_div]
    exact h.shiftRight k
  have hm : (ExtendedMantissa.ofMantissaAndAccuracy m acc).mantissa = m := by
    rcases acc with _ | ⟨_ | _ | _⟩ <;> rfl
  obtain ⟨hlow, hhigh⟩ := h.bounds
  rw [hm] at hlow hhigh
  have hclose := hshifted.roundedMantissa
  have hunit : (0 : ℚ) < 2 ^ e := by positivity
  have hunit' : (0 : ℚ) < 2 ^ e' := by positivity
  have hshort : x < 2 ^ 53 * 2 ^ e' := by
    have hdigits : ((m + 1 : ℕ) : ℚ) ≤ ((2 ^ (m.log2 + 1) : ℕ) : ℚ) :=
      Nat.cast_le.mpr Nat.lt_log2_self
    push_cast at hdigits
    calc x < 2 ^ (m.log2 + 1) * 2 ^ e := (div_lt_iff₀ hunit).mp (lt_of_lt_of_le hhigh hdigits)
      _ = 2 ^ ((m.log2 + 1 : ℕ) + e : ℤ) := by rw [zpow_add₀ two_ne_zero, zpow_natCast]
      _ ≤ 2 ^ (53 + e' : ℤ) := zpow_le_zpow_right₀ one_le_two (by omega)
      _ = 2 ^ 53 * 2 ^ e' := by rw [zpow_add₀ two_ne_zero]; norm_cast
  have hleading : e' = -1074 ∨ 2 ^ 52 * 2 ^ e' ≤ x := by
    by_cases hleast : e' = -1074
    · exact .inl hleast
    have hdigits : ((2 ^ m.log2 : ℕ) : ℚ) ≤ (m : ℚ) :=
      Nat.cast_le.mpr (Nat.log2_self_le (by rintro rfl; simp at he; omega))
    push_cast at hdigits
    right
    calc (2 : ℚ) ^ 52 * 2 ^ e' = 2 ^ (52 + e' : ℤ) := by rw [zpow_add₀ two_ne_zero]; norm_cast
      _ = 2 ^ ((m.log2 : ℕ) + e : ℤ) := by congr 1; omega
      _ = 2 ^ m.log2 * 2 ^ e := by rw [zpow_add₀ two_ne_zero, zpow_natCast]
      _ ≤ x := (le_div_iff₀ hunit).mp (hdigits.trans hlow)
  have hhigh : x / 2 ^ e' ≤ (2 ^ 53 : ℕ) := by
    push_cast
    exact ((div_lt_iff₀ hunit').mpr hshort).le
  have hlow (hx : 2 ^ 52 * 2 ^ e' ≤ x) : (2 ^ 52 : ℕ) ≤ x / 2 ^ e' := by
    push_cast
    exact (le_div_iff₀ hunit').mpr hx
  exact ⟨_, .intro (by omega) hleading hshort hclose hshifted.even_roundedMantissa,
    measures_roundWithAccuracy s hfirst (le_of_close hclose hhigh) (by omega)
      (hleading.imp_right fun hx => ge_of_close hclose (hlow hx))⟩

/-! ## Numbers that need no rounding -/

theorem mul_zpow_le_of_lt {a b : ℚ} {e e' : ℤ} (ha : a ≤ 2 ^ 53) (hb : 2 ^ 52 ≤ b) (he : e < e') :
    a * 2 ^ e ≤ b * 2 ^ e' := by
  have hunit : (0 : ℚ) < 2 ^ e := by positivity
  have hnext : (2 : ℚ) ^ (e + 1) ≤ 2 ^ e' := zpow_le_zpow_right₀ one_le_two he
  rw [zpow_add_one₀ two_ne_zero] at hnext
  calc a * 2 ^ e ≤ 2 ^ 53 * 2 ^ e := mul_le_mul_of_nonneg_right ha hunit.le
    _ = 2 ^ 52 * (2 ^ e * 2) := by ring
    _ ≤ 2 ^ 52 * 2 ^ e' := mul_le_mul_of_nonneg_left hnext (by norm_num)
    _ ≤ b * 2 ^ e' := mul_le_mul_of_nonneg_right hb (by positivity)

theorem exists_scaled (m : ℕ) {e e' : ℤ} (h : e ≤ e') :
    ∃ n : ℕ, (m * 2 ^ e' : ℚ) = n * 2 ^ e := by
  obtain ⟨k, rfl⟩ := Int.le.dest h
  refine ⟨m * 2 ^ k, ?_⟩
  rw [zpow_add₀ two_ne_zero, zpow_natCast]
  push_cast
  ring

namespace Near

variable {x z : ℚ} {m : ℕ} {e : ℤ}

theorem le_of_le (h : Near x z) (hm : m < 2 ^ 53) (he : -1074 ≤ e) (hx : x ≤ m * 2 ^ e) :
    z ≤ m * 2 ^ e := by
  cases h with
  | @intro m' e' least leading short close =>
      have hunit : (0 : ℚ) < 2 ^ e' := by positivity
      rcases lt_or_ge e e' with hlt | hle
      · have hfirst := leading.resolve_left (by omega)
        have hbelow : (m : ℚ) * 2 ^ e < 2 ^ 53 * 2 ^ e :=
          mul_lt_mul_of_pos_right (by exact_mod_cast hm) (by positivity)
        have hpower : (2 : ℚ) ^ 53 * 2 ^ e ≤ 2 ^ 52 * 2 ^ e' := mul_zpow_le_of_lt le_rfl le_rfl hlt
        linarith
      · obtain ⟨n, hn⟩ := exists_scaled m hle
        rw [hn] at hx ⊢
        have hdigits := le_of_close close ((div_le_iff₀ hunit).mpr hx)
        exact mul_le_mul_of_nonneg_right (Nat.cast_le.mpr hdigits) hunit.le

theorem ge_of_ge (h : Near x z) (hm : m < 2 ^ 53) (he : -1074 ≤ e) (hx : m * 2 ^ e ≤ x) :
    m * 2 ^ e ≤ z := by
  cases h with
  | @intro m' e' least leading short close =>
      have hunit : (0 : ℚ) < 2 ^ e' := by positivity
      rcases lt_or_ge e e' with hlt | hle
      · have hfirst := leading.resolve_left (by omega)
        have hlow : (2 ^ 52 : ℕ) ≤ x / 2 ^ e' := by
          push_cast
          exact (le_div_iff₀ hunit).mpr hfirst
        have hlong : (2 : ℚ) ^ 52 ≤ m' := by exact_mod_cast ge_of_close close hlow
        exact mul_zpow_le_of_lt (by exact_mod_cast hm.le) hlong hlt
      · obtain ⟨n, hn⟩ := exists_scaled m hle
        rw [hn] at hx ⊢
        have hdigits := ge_of_close close ((le_div_iff₀ hunit).mpr hx)
        exact mul_le_mul_of_nonneg_right (Nat.cast_le.mpr hdigits) hunit.le

/-- What needs no more digits is not changed. -/
theorem eq_of_short (h : Near (m * 2 ^ e) z) (hm : m < 2 ^ 53) (he : -1074 ≤ e) : z = m * 2 ^ e :=
  le_antisymm (h.le_of_le hm he le_rfl) (h.ge_of_ge hm he le_rfl)

theorem eq_zero (h : Near 0 z) : z = 0 := by
  have hzero := @eq_of_short z 0 0 (by rwa [Nat.cast_zero, zero_mul]) (by decide) (by decide)
  rwa [Nat.cast_zero, zero_mul] at hzero

/-- The last of 53 digits counts at most `2 ^ -52` of the number. -/
theorem relative (h : Near x z) (hx : x = 0 ∨ 2 ^ (-1022 : ℤ) ≤ x) : |z - x| ≤ x / 2 ^ 53 := by
  rcases hx with rfl | hx
  · rw [h.eq_zero, sub_zero, abs_zero, zero_div]
  cases h with
  | @intro m e least leading short close =>
      have hunit : (0 : ℚ) < 2 ^ e := by positivity
      have hfirst : 2 ^ 52 * 2 ^ e ≤ x := by
        rcases leading with rfl | hfirst
        · refine le_trans (le_of_eq ?_) hx
          rw [← zpow_natCast, ← zpow_add₀ two_ne_zero]
          norm_num
        · exact hfirst
      have hdiff : (m : ℚ) * 2 ^ e - x = (m - x / 2 ^ e) * 2 ^ e := by
        rw [sub_mul, div_mul_cancel₀ _ hunit.ne']
      calc |(m : ℚ) * 2 ^ e - x| = |m - x / 2 ^ e| * 2 ^ e := by
            rw [hdiff, abs_mul, abs_of_pos hunit]
        _ ≤ 1 / 2 * 2 ^ e := mul_le_mul_of_nonneg_right close hunit.le
        _ ≤ x / 2 ^ 53 := by linarith

/-- A number so close to one that needs no more digits is rounded to it. It may be a bit further
above than below, where the digits may count half as much. -/
theorem eq_of_close {y : ℚ} (h : Near x z) (hy : y = m * 2 ^ e) (hm : m < 2 ^ 53) (he : -1074 ≤ e)
    (habove : x ≤ y + y / 2 ^ 54) (hbelow : y - y / 2 ^ 54 < x) : z = y := by
  cases h with
  | @intro m' e' least leading short close =>
      have hunit : (0 : ℚ) < 2 ^ e' := by positivity
      have hm1 : (m : ℚ) + 1 ≤ 2 ^ 53 := by exact_mod_cast hm
      have hplace : e' ≤ e := by
        by_contra hlt
        have hfirst := leading.resolve_left (by omega)
        have hnext : (2 : ℚ) ^ (e + 1) ≤ 2 ^ e' := zpow_le_zpow_right₀ one_le_two (by omega)
        rw [zpow_add_one₀ two_ne_zero] at hnext
        have hstep : (0 : ℚ) < 2 ^ e := by positivity
        have : y ≤ (2 ^ 53 - 1) * 2 ^ e := by
          rw [hy]
          exact mul_le_mul_of_nonneg_right (by linarith) hstep.le
        linarith
      obtain ⟨n, hn⟩ := exists_scaled m hplace
      rw [hn] at hy
      have hnshort : n ≤ 2 ^ 53 := by
        by_contra hlong
        have hlong : (2 : ℚ) ^ 53 + 1 ≤ n := by exact_mod_cast Nat.lt_of_not_le hlong
        have := mul_le_mul_of_nonneg_right hlong hunit.le
        linarith
      have hnlong : (n : ℚ) ≤ 2 ^ 53 := by exact_mod_cast hnshort
      generalize hs : x / 2 ^ e' = s at close
      have hx : x = s * 2 ^ e' := by rw [← hs, div_mul_cancel₀ _ hunit.ne']
      rw [hx, hy, mul_div_right_comm] at habove hbelow
      rw [hx] at short
      have hshort : s < 2 ^ 53 := lt_of_mul_lt_mul_right short hunit.le
      have hlow : (n : ℚ) - n / 2 ^ 54 < s :=
        lt_of_mul_lt_mul_right (by rwa [sub_mul]) hunit.le
      have hhigh : s ≤ (n : ℚ) + n / 2 ^ 54 :=
        le_of_mul_le_mul_right (by rwa [add_mul]) hunit
      obtain ⟨hclose, hclose'⟩ := abs_le.mp close
      have hnm : n < m' + 1 := by
        have : (n : ℚ) < m' + 1 := by linarith
        exact_mod_cast this
      have hmn : m' < n + 1 := by
        have : (m' : ℚ) < n + 1 := by
          rcases Nat.lt_or_eq_of_le hnshort with hlt | rfl
          · have : (n : ℚ) < 2 ^ 53 := by exact_mod_cast hlt
            linarith
          · push_cast
            linarith
        exact_mod_cast this
      rw [hy, show m' = n by omega]

end Near
end ChatAgent
