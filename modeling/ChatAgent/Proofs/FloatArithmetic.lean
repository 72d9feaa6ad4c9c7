import ChatAgent.Proofs.NearestFloat
import ChatAgent.Proofs.Rounding
import Mathlib

/-!
# Products and quotients of floats

Products and quotients of floats measure the rational products and quotients, rounded
(`Measures.nearEven_mul`, `Measures.nearEven_div`), or are infinite where these are too large
(`Reaches`).
Floats are rounded to integers exactly (`measures_roundEven`).
-/

namespace ChatAgent

open Float.Model (Format totalExponent UnpackedFloat)
open Float.Model.UnpackedFloat

/-- Less than half of the least float is rounded to zero. -/
theorem NearEven.zero_of_tiny {x : ℚ} (h0 : 0 ≤ x) (hx : x < 2 ^ (-1075 : ℤ)) : NearEven x 0 := by
  have hunit : (0 : ℚ) < 2 ^ (-1074 : ℤ) := by positivity
  have hhalf : x / 2 ^ (-1074 : ℤ) < 1 / 2 := by
    rw [div_lt_iff₀ hunit]
    refine lt_of_lt_of_eq hx ?_
    rw [show (-1074 : ℤ) = -1075 + 1 by norm_num, zpow_add_one₀ two_ne_zero]
    ring
  have hnonneg : 0 ≤ x / 2 ^ (-1074 : ℤ) := div_nonneg h0 hunit.le
  have hshort : x < 2 ^ 53 * 2 ^ (-1074 : ℤ) := by
    rw [← div_lt_iff₀ hunit]
    exact lt_trans hhalf (by norm_num)
  have hclose : |((0 : ℕ) : ℚ) - x / 2 ^ (-1074 : ℤ)| ≤ 1 / 2 := by
    rw [Nat.cast_zero, zero_sub, abs_neg, abs_of_nonneg hnonneg]
    exact hhalf.le
  have h := NearEven.intro (m := 0) le_rfl (.inl rfl) hshort hclose fun _ => Even.zero
  rwa [Nat.cast_zero, zero_mul] at h

theorem NearEven.zero : NearEven 0 0 := zero_of_tiny le_rfl (by positivity)

/-! ## Unpacked floats -/

namespace Canonical

variable {m n : ℕ} {e i : ℤ}

theorem lt_of_lt (hm : Canonical m e) (hn : Canonical n i) (h : e < i) :
    (m : ℚ) * 2 ^ e < n * 2 ^ i := by
  have hleast := hm.least
  have hshort : (m : ℚ) < 2 ^ 53 := by exact_mod_cast hm.short
  have hlong : (2 : ℚ) ^ 52 ≤ n := by exact_mod_cast hn.leading.resolve_left (by omega)
  calc (m : ℚ) * 2 ^ e < 2 ^ 53 * 2 ^ e := mul_lt_mul_of_pos_right hshort (by positivity)
    _ ≤ n * 2 ^ i := mul_zpow_le_of_lt le_rfl hlong h

/-- The canonical form of a number is unique. -/
theorem unique (hm : Canonical m e) (hn : Canonical n i) (h : (m : ℚ) * 2 ^ e = n * 2 ^ i) :
    m = n ∧ e = i := by
  rcases Int.lt_trichotomy e i with hlt | rfl | hgt
  · exact absurd h (hm.lt_of_lt hn hlt).ne
  · have hunit : (2 : ℚ) ^ e ≠ 0 := by positivity
    exact ⟨by exact_mod_cast mul_right_cancel₀ hunit h, rfl⟩
  · exact absurd h (hn.lt_of_lt hm hgt).ne'

end Canonical

namespace Measures

variable {u w : UnpackedFloat} {s t : Sign} {x y : ℚ}

theorem eq_zero (h : Measures u s 0) : u = .zero s := by
  generalize hx : (0 : ℚ) = x at h
  cases h with
  | zero => rfl
  | @finite s m e _ hpos =>
      have : (0 : ℚ) < m * 2 ^ e := mul_pos (by exact_mod_cast hpos) (by positivity)
      linarith

theorem eq_finite {m : ℕ} {e : ℤ} (h : Measures u s (m * 2 ^ e)) (hm : Canonical m e)
    (hpos : 0 < m) : u = .finite s m e hpos := by
  generalize hx : (m : ℚ) * 2 ^ e = x at h
  cases h with
  | zero =>
      have : (0 : ℚ) < m * 2 ^ e := mul_pos (by exact_mod_cast hpos) (by positivity)
      linarith
  | finite s hn hn0 =>
      obtain ⟨rfl, rfl⟩ := hm.unique hn hx
      rfl

/-- The product of two floats in canonical form has enough digits for one. -/
theorem place_mul {m n : ℕ} {e i : ℤ} (hm : Canonical m e) (hn : Canonical n i) (hm0 : 0 < m)
    (hn0 : 0 < n) : e + i ≤ max (((m * n).log2 : ℤ) + (e + i) - 52) (-1074) := by
  have hlong (h : 2 ^ 52 ≤ m * n) : 52 ≤ (m * n).log2 :=
    (Nat.le_log2 (Nat.mul_pos hm0 hn0).ne').mpr h
  have hleast := hm.least
  have hleast' := hn.least
  rcases hm.leading with rfl | hfirst
  · rcases hn.leading with rfl | hfirst
    · omega
    · have := hlong (hfirst.trans (Nat.le_mul_of_pos_left n hm0))
      omega
  · have := hlong (hfirst.trans (Nat.le_mul_of_pos_right m hn0))
    omega

theorem nearEven_mul_finite (s t : Sign) {m n : ℕ} {e i : ℤ} (hm0 : 0 < m) (hn0 : 0 < n)
    (hplace : e + i ≤ max (((m * n).log2 : ℤ) + (e + i) - 52) (-1074)) :
    ∃ z, NearEven (m * 2 ^ e * (n * 2 ^ i)) z ∧
      Measures (mul .binary64 (.finite s m e hm0) (.finite t n i hn0)) (s * t) z := by
  refine nearEven_roundWithAccuracy (s * t) ?_ hplace
  have hdigits : ((m : ℚ) * 2 ^ e * (n * 2 ^ i)) / 2 ^ (e + i) = (m * n : ℕ) := by
    rw [zpow_add₀ two_ne_zero]
    push_cast
    field_simp
  rw [hdigits]
  exact .exact _

theorem nearEven_mul (hu : Measures u s x) (hw : Measures w t y) :
    ∃ z, NearEven (x * y) z ∧ Measures (mul .binary64 u w) (s * t) z := by
  cases hu with
  | zero =>
      rw [zero_mul]
      cases hw <;> exact ⟨0, .zero, .zero _⟩
  | finite s hm hm0 =>
      cases hw with
      | zero =>
          rw [mul_zero]
          exact ⟨0, .zero, .zero _⟩
      | finite t hn hn0 => exact nearEven_mul_finite s t hm0 hn0 (place_mul hm hn hm0 hn0)

/-- The dividend is given so many zeros behind it that the quotient has enough digits. -/
theorem exists_divCore (m : ℕ) (e : ℤ) (n : ℕ) (i : ℤ) :
    ∃ k : ℕ, divCore .binary64 m e n i =
        (m * 2 ^ k / n, e - i - k, accuracyOfFraction (m * 2 ^ k % n) n) ∧
      (e - i - k ≤ -1074 ∨ n.log2 + 53 ≤ m.log2 + k) := by
  generalize htarget : min (e - i) (Format.binary64.targetExponent
    (totalExponent m e - totalExponent n i)) = target
  have hplaces : min (e - i) (max ((m.log2 : ℤ) + e - (n.log2 + i) - 53) (-1074)) = target := by
    simp only [Format.targetExponent, totalExponent, Format.mantissaBits,
      Format.minExponent] at htarget
    omega
  obtain ⟨k, hk⟩ := Int.le.dest (show target ≤ e - i by omega)
  have hshift : (e - i - target).toNat = k := by omega
  have hexponent : e - i - k = target := by omega
  refine ⟨k, ?_, by omega⟩
  simp only [divCore, htarget, hshift, hexponent, Nat.shiftLeft_eq]

theorem nearEven_div_finite (s t : Sign) {m n : ℕ} (e i : ℤ) (hm0 : 0 < m) (hn0 : 0 < n) :
    ∃ z, NearEven (m * 2 ^ e / (n * 2 ^ i)) z ∧
      Measures (div .binary64 (.finite s m e hm0) (.finite t n i hn0)) (s / t) z := by
  obtain ⟨k, hcore, hplaces⟩ := exists_divCore m e n i
  have hdiv : div .binary64 (.finite s m e hm0) (.finite t n i hn0) =
      roundWithAccuracy .binary64 (s / t) (m * 2 ^ k / n) (e - i - k)
        (accuracyOfFraction (m * 2 ^ k % n) n) := by
    simp only [div, hcore]
  rw [hdiv]
  refine nearEven_roundWithAccuracy (s / t) ?_ ?_
  · have hn0' : (n : ℚ) ≠ 0 := Nat.cast_ne_zero.mpr hn0.ne'
    have hsplit : ((m * 2 ^ k : ℕ) : ℚ) =
        n * (m * 2 ^ k / n : ℕ) + (m * 2 ^ k % n : ℕ) := by
      exact_mod_cast (Nat.div_add_mod _ n).symm
    have hquotient : (m * 2 ^ e / (n * 2 ^ i) / 2 ^ (e - i - k) : ℚ) =
        (m * 2 ^ k / n : ℕ) + (m * 2 ^ k % n : ℕ) / n :=
      calc (m * 2 ^ e / (n * 2 ^ i) / 2 ^ (e - i - k) : ℚ)
          = (m * 2 ^ k : ℕ) / n := by
            rw [zpow_sub₀ two_ne_zero, zpow_sub₀ two_ne_zero, zpow_natCast]
            push_cast
            field_simp
        _ = (m * 2 ^ k / n : ℕ) + (m * 2 ^ k % n : ℕ) / n := by
            rw [hsplit, add_div, mul_div_cancel_left₀ _ hn0']
    rw [hquotient]
    exact .fraction _ (Nat.mod_lt _ hn0)
  · rcases hplaces with hleast | hlong
    · omega
    · have hdigits : 2 ^ 52 ≤ m * 2 ^ k / n := by
        rw [Nat.le_div_iff_mul_le hn0]
        have hpower : 2 ^ (n.log2 + 53) ≤ 2 ^ (m.log2 + k) :=
          Nat.pow_le_pow_right two_pos hlong
        calc 2 ^ 52 * n ≤ 2 ^ 52 * 2 ^ (n.log2 + 1) :=
              Nat.mul_le_mul_left _ Nat.lt_log2_self.le
          _ = 2 ^ (n.log2 + 53) := by ring
          _ ≤ 2 ^ (m.log2 + k) := hpower
          _ = 2 ^ m.log2 * 2 ^ k := pow_add _ _ _
          _ ≤ m * 2 ^ k := Nat.mul_le_mul_right _ (Nat.log2_self_le hm0.ne')
      have := (Nat.le_log2 (by omega)).mpr hdigits
      omega

theorem nearEven_div (hu : Measures u s x) (hw : Measures w t y) (hy : y ≠ 0) :
    ∃ z, NearEven (x / y) z ∧ Measures (div .binary64 u w) (s / t) z := by
  cases hw with
  | zero => exact absurd rfl hy
  | finite t hn hn0 =>
      cases hu with
      | zero =>
          rw [zero_div]
          exact ⟨0, .zero, .zero _⟩
      | finite s hm hm0 => exact nearEven_div_finite s t _ _ hm0 hn0

end Measures

theorem nearEven_round (s : Sign) {m : ℕ} (hm0 : 0 < m) (e : ℤ) :
    ∃ z, NearEven (m * 2 ^ e) z ∧ Measures (UnpackedFloat.round .binary64 s m e) s z := by
  obtain ⟨k, hk⟩ : ∃ k, (e - max (m.log2 + e - 52) (-1074)).toNat = k := ⟨_, rfl⟩
  have hround : UnpackedFloat.round .binary64 s m e =
      roundWithAccuracy .binary64 s (m * 2 ^ k) (e - k) .exact := by
    simp only [UnpackedFloat.round, decreaseExponent, targetExponent_totalExponent, hk,
      Nat.shiftLeft_eq]
  rw [hround]
  refine nearEven_roundWithAccuracy s ?_ ?_
  · have hdigits : (m * 2 ^ e : ℚ) / 2 ^ (e - k) = (m * 2 ^ k : ℕ) := by
      rw [zpow_sub₀ two_ne_zero, zpow_natCast]
      push_cast
      field_simp
    rw [hdigits]
    exact .exact _
  · rw [log2_mul_two_pow hm0.ne']
    omega

/-! ## Packing -/

theorem toNat_one_append {ma : ℕ} (hlow : 2 ^ 52 ≤ ma) (hhigh : ma < 2 ^ 53) :
    (1#1 ++ BitVec.ofNat 52 ma).toNat = ma := by
  have hone : (1#1).toNat <<< 52 = 2 ^ 52 := rfl
  rw [BitVec.toNat_append, BitVec.toNat_ofNat ma, hone, Nat.or_comm,
    Nat.or_two_pow_eq_add_of_lt (Nat.mod_lt ma (Nat.two_pow_pos 52))]
  omega

theorem unpack_normal (s : Sign) {b m : ℕ} (hb0 : 0 < b) (hb : b < 2047) (hlow : 2 ^ 52 ≤ m)
    (hhigh : m < 2 ^ 53) (hpos : 0 < m) :
    unpack .binary64 (packComponents .binary64 s (BitVec.ofNat 11 b) (BitVec.ofNat 52 m)) =
      .finite s m ((b : ℤ) - 1075) hpos := by
  have hexponent : (BitVec.ofNat 11 b).toNat = b := by
    rw [BitVec.toNat_ofNat]
    omega
  have hzero : BitVec.ofNat 11 b ≠ 0#11 := by
    intro h
    have h0 : (0#11).toNat = 0 := rfl
    rw [← h, hexponent] at h0
    omega
  have hinf : BitVec.ofNat 11 b ≠ -1#11 := by
    intro h
    have h1 : (-1#11).toNat = 2047 := rfl
    rw [← h, hexponent] at h1
    omega
  have hunbiased : (b : ℤ) - (Format.binary64.exponentBias +
      Format.binary64.mantissaBitsWithoutImplicit) = (b : ℤ) - 1075 := rfl
  simp only [unpack, unpackMantissa_packComponents, unpackExponent_packComponents,
    unpackSign_packComponents, Sign.ofBitVec_toBitVec, toNat_one_append hlow hhigh, hexponent,
    hunbiased]
  rw [if_neg hinf, if_neg hzero]

theorem unpack_subnormal (s : Sign) {m : ℕ} (hm : m < 2 ^ 52) (hpos : 0 < m) :
    unpack .binary64 (packComponents .binary64 s 0#11 (BitVec.ofNat 52 m)) =
      .finite s m (-1074) hpos := by
  have hmantissa : (BitVec.ofNat 52 m).toNat = m := by
    rw [BitVec.toNat_ofNat]
    omega
  have hzero : BitVec.ofNat 52 m ≠ 0#52 := by
    intro h
    have h0 : (0#52).toNat = 0 := rfl
    rw [← h, hmantissa] at h0
    omega
  have hunbiased : ((0#11).toNat : ℤ) - (Format.binary64.exponentBias +
      Format.binary64.mantissaBitsWithoutImplicit) + 1 = -1074 := rfl
  have hinf : (0#11) ≠ -1#11 := by decide
  simp only [unpack, unpackMantissa_packComponents, unpackExponent_packComponents,
    unpackSign_packComponents, Sign.ofBitVec_toBitVec, hmantissa, hunbiased]
  rw [if_neg hinf, if_pos trivial, dif_neg hzero]

namespace Canonical

variable {m : ℕ} {e : ℤ}

theorem unpack_pack (h : Canonical m e) (he : e ≤ 971) (s : Sign) (hpos : 0 < m) :
    unpack .binary64 (pack .binary64 (.finite s m e hpos)) = .finite s m e hpos := by
  have hleast := h.least
  obtain ⟨b, rfl⟩ : ∃ b : ℕ, e = (b : ℤ) - 1075 := ⟨(e + 1075).toNat, by omega⟩
  have hbiased : ((b : ℤ) - 1075 + Format.binary64.exponentBias +
      Format.binary64.mantissaBitsWithoutImplicit).toNat = b := by
    show ((b : ℤ) - 1075 + (1023 : ℕ) + (52 : ℕ)).toNat = b
    omega
  have hfits : ¬ 2 ^ Format.binary64.exponentBits ≤ b + 1 := by
    show ¬ 2 ^ 11 ≤ b + 1
    omega
  unfold pack
  dsimp only
  rw [hbiased, if_neg hfits]
  by_cases hlow : 2 ^ 52 ≤ m
  · have hdigits : m.log2 + 1 = Format.binary64.mantissaBits := by
      rw [(Nat.log2_eq_iff hpos.ne').mpr ⟨hlow, h.short⟩]
      rfl
    rw [if_pos hdigits]
    exact unpack_normal s (by omega) (by omega) hlow h.short hpos
  · have hdigits : ¬ m.log2 + 1 = Format.binary64.mantissaBits := by
      have := (Nat.log2_lt hpos.ne').mpr (Nat.lt_of_not_le hlow)
      show ¬ m.log2 + 1 = 53
      omega
    have hexponent : (b : ℤ) - 1075 = -1074 := h.leading.resolve_right hlow
    rw [if_neg hdigits]
    simp only [hexponent]
    exact unpack_subnormal s (Nat.lt_of_not_le hlow) hpos

/-- Too large an exponent makes an infinity. -/
theorem unpack_pack_infinity (he : 972 ≤ e) (s : Sign) (hpos : 0 < m) :
    unpack .binary64 (pack .binary64 (.finite s m e hpos)) = .infinity s := by
  have hlarge : 2 ^ Format.binary64.exponentBits ≤ (e + Format.binary64.exponentBias +
      Format.binary64.mantissaBitsWithoutImplicit).toNat + 1 := by
    show 2 ^ 11 ≤ (e + (1023 : ℕ) + (52 : ℕ)).toNat + 1
    omega
  unfold pack
  dsimp only
  rw [if_pos hlarge]
  cases s <;> rfl

end Canonical

theorem canonical_of_unpack {v : BitVec Format.binary64.numBits} {s : Sign} {m : ℕ} {e : ℤ}
    {hpos : 0 < m} (h : unpack .binary64 v = .finite s m e hpos) : Canonical m e ∧ e ≤ 971 := by
  have hlow : (unpackMantissa v).toNat < 2 ^ 52 := (unpackMantissa v).isLt
  have hhigh : (unpackExponent v).toNat < 2 ^ 11 := (unpackExponent v).isLt
  have hunbiased (n : ℕ) : (n : ℤ) - (Format.binary64.exponentBias +
      Format.binary64.mantissaBitsWithoutImplicit) = n - 1075 := rfl
  unfold unpack at h
  simp only [hunbiased] at h
  split at h
  · split at h <;> cases h
  · rename_i hfinite
    have hlast : (unpackExponent v).toNat ≠ 2047 := fun h => hfinite (BitVec.eq_of_toNat_eq h)
    split at h
    · rename_i hzero
      have hfirst : (unpackExponent v).toNat = 0 := congrArg BitVec.toNat hzero
      split at h
      · cases h
      · injection h with _ hm he
        exact ⟨⟨by omega, by omega, .inl (by omega)⟩, by omega⟩
    · rename_i hnormal
      have hfirst : (unpackExponent v).toNat ≠ 0 := fun h => hnormal (BitVec.eq_of_toNat_eq h)
      injection h with _ hm he
      have hdigits : m = 2 ^ 52 + (unpackMantissa v).toNat := by
        have hone : (1#1).toNat <<< 52 = 2 ^ 52 := rfl
        rw [← hm, BitVec.toNat_append, hone, Nat.or_comm, Nat.or_two_pow_eq_add_of_lt hlow,
          Nat.add_comm]
      exact ⟨⟨by omega, by omega, .inr (by omega)⟩, by omega⟩
/-- The float has a sign and a magnitude, or is infinite if the magnitude is too large. -/
def Reaches (u : UnpackedFloat) (s : Sign) (x : ℚ) : Prop :=
  if x < 2 ^ 1024 then Measures u s x else u = .infinity s

theorem lt_of_le_two_pow {x : ℚ} (h : x ≤ 2 ^ 66) : x < 2 ^ 1024 :=
  lt_of_le_of_lt h (pow_lt_pow_right₀ one_lt_two (by decide))

theorem Measures.reaches_pack {u : UnpackedFloat} {s : Sign} {x : ℚ} (h : Measures u s x) :
    Reaches (Float.Model.pack u).unpack s x := by
  cases h with
  | zero =>
      have hzero : (Float.Model.pack (.zero s)).unpack = .zero s := unpack_packedZero
      rw [hzero, Reaches, if_pos (lt_of_le_two_pow (by norm_num))]
      exact .zero s
  | @finite s m e h hpos =>
      have hunit : (0 : ℚ) < 2 ^ e := by positivity
      by_cases he : e ≤ 971
      · have hpack : (Float.Model.pack (.finite s m e hpos)).unpack = .finite s m e hpos :=
          h.unpack_pack he s hpos
        have hshort : (m : ℚ) < 2 ^ 53 := by exact_mod_cast h.short
        rw [hpack, Reaches, if_pos]
        · exact .finite s h hpos
        calc (m : ℚ) * 2 ^ e < 2 ^ 53 * 2 ^ e := mul_lt_mul_of_pos_right hshort hunit
          _ ≤ 2 ^ 53 * 2 ^ (971 : ℤ) :=
              mul_le_mul_of_nonneg_left (zpow_le_zpow_right₀ one_le_two he) (by norm_num)
          _ = 2 ^ 1024 := by
              rw [← zpow_natCast, ← zpow_natCast, ← zpow_add₀ two_ne_zero]
              congr 1
      · have hpack : (Float.Model.pack (.finite s m e hpos)).unpack = .infinity s :=
          Canonical.unpack_pack_infinity (by omega) s hpos
        have hlong : (2 : ℚ) ^ 52 ≤ m := by
          exact_mod_cast h.leading.resolve_left (by omega)
        rw [hpack, Reaches, if_neg]
        refine not_lt_of_ge ?_
        calc (2 : ℚ) ^ 1024 = 2 ^ 52 * 2 ^ (972 : ℤ) := by
              rw [← zpow_natCast, ← zpow_natCast, ← zpow_add₀ two_ne_zero]
              congr 1
          _ ≤ 2 ^ 52 * 2 ^ e :=
              mul_le_mul_of_nonneg_left (zpow_le_zpow_right₀ one_le_two (by omega)) (by norm_num)
          _ ≤ m * 2 ^ e := mul_le_mul_of_nonneg_right hlong hunit.le

theorem Reaches.measures {u : UnpackedFloat} {s : Sign} {x : ℚ} (h : Reaches u s x)
    (hx : x < 2 ^ 1024) : Measures u s x := by
  rwa [Reaches, if_pos hx] at h

/-! ## Floats -/

variable {f g : Float} {s t : Sign} {x y : ℚ}

theorem reaches_mul (hf : Measures f.toModel.unpack s x) (hg : Measures g.toModel.unpack t y) :
    ∃ z, Near (x * y) z ∧ Reaches (f * g).toModel.unpack (s * t) z := by
  obtain ⟨z, hz, h⟩ := hf.nearEven_mul hg
  exact ⟨z, hz.near, h.reaches_pack⟩

theorem reaches_div (hf : Measures f.toModel.unpack s x) (hg : Measures g.toModel.unpack t y)
    (hy : y ≠ 0) : ∃ z, Near (x / y) z ∧ Reaches (f / g).toModel.unpack (s / t) z := by
  obtain ⟨z, hz, h⟩ := hf.nearEven_div hg hy
  exact ⟨z, hz.near, h.reaches_pack⟩

/-! ## Rounding to integers -/

namespace Binary

variable {b : Binary}

/-- The number without its sign. -/
def magnitude (b : Binary) : ℚ := b.mantissa * 2 ^ b.exponent

theorem rest_lt (b : Binary) : b.rest < 2 ^ b.places := by
  unfold rest
  split
  · exact Nat.mod_lt _ (Nat.two_pow_pos _)
  · exact Nat.two_pow_pos _

theorem magnitude_eq (b : Binary) : b.magnitude = b.whole + b.rest / 2 ^ b.places := by
  unfold magnitude whole rest
  split
  · rename_i hneg
    have hexponent : b.exponent = -(b.places : ℤ) := by
      unfold places
      omega
    have hsplit : (b.mantissa : ℚ) =
        2 ^ b.places * (b.mantissa / 2 ^ b.places : ℕ) + (b.mantissa % 2 ^ b.places : ℕ) := by
      exact_mod_cast (Nat.div_add_mod _ _).symm
    rw [hexponent, zpow_neg, zpow_natCast, ← div_eq_mul_inv]
    nth_rewrite 1 [hsplit]
    rw [add_div, mul_div_cancel_left₀ _ (by positivity)]
    rfl
  · rename_i hnonneg
    have hexponent : b.exponent = (b.exponent.toNat : ℤ) := by omega
    nth_rewrite 1 [hexponent]
    rw [zpow_natCast, Nat.cast_zero, zero_div, add_zero]
    norm_cast

theorem rest_div_lt_one (b : Binary) : (b.rest : ℚ) / 2 ^ b.places < 1 := by
  rw [div_lt_one (by positivity)]
  exact_mod_cast b.rest_lt

theorem whole_eq_floor (b : Binary) : b.whole = ⌊b.magnitude⌋₊ := by
  have hrest := b.rest_div_lt_one
  have hnonneg : (0 : ℚ) ≤ b.rest / 2 ^ b.places := by positivity
  rw [magnitude_eq]
  exact ((Nat.floor_eq_iff (by positivity)).mpr ⟨by linarith, by linarith⟩).symm

theorem evenMagnitude_eq (b : Binary) :
    b.evenMagnitude =
      if 2 ^ b.places < 2 * b.rest ∨ 2 ^ b.places = 2 * b.rest ∧ b.whole % 2 = 1 then b.whole + 1
      else b.whole := rfl

theorem evenMagnitude_close (b : Binary) : |b.evenMagnitude - b.magnitude| ≤ 1 / 2 := by
  have hunit : (0 : ℚ) < 2 ^ b.places := by positivity
  have hrest := b.rest_div_lt_one
  have hnonneg : (0 : ℚ) ≤ b.rest / 2 ^ b.places := by positivity
  rw [magnitude_eq, evenMagnitude_eq, abs_le]
  split
  · rename_i hup
    have hhalf : (2 : ℚ) ^ b.places ≤ 2 * b.rest := by
      exact_mod_cast (by omega : 2 ^ b.places ≤ 2 * b.rest)
    have hhalf : 1 / 2 ≤ (b.rest : ℚ) / 2 ^ b.places := by
      rw [div_le_div_iff₀ two_pos hunit]
      linarith
    push_cast
    constructor <;> linarith
  · rename_i hdown
    have hhalf : (2 * b.rest : ℚ) ≤ 2 ^ b.places := by
      exact_mod_cast (by omega : 2 * b.rest ≤ 2 ^ b.places)
    have hhalf : (b.rest : ℚ) / 2 ^ b.places ≤ 1 / 2 := by
      rw [div_le_div_iff₀ hunit two_pos]
      linarith
    constructor <;> linarith

/-- Halfway between two integers the even one is taken. -/
theorem even_evenMagnitude (h : |b.evenMagnitude - b.magnitude| = 1 / 2) :
    Even b.evenMagnitude := by
  have hunit : (0 : ℚ) < 2 ^ b.places := by positivity
  have hrest := b.rest_div_lt_one
  have hnonneg : (0 : ℚ) ≤ b.rest / 2 ^ b.places := by positivity
  have hhalf : (b.rest : ℚ) / 2 ^ b.places = 1 / 2 := by
    rw [magnitude_eq, evenMagnitude_eq, abs_eq (by norm_num)] at h
    split at h <;> push_cast at h <;> rcases h with h | h <;> linarith
  have htie : 2 ^ b.places = 2 * b.rest := by
    rw [div_eq_div_iff hunit.ne' two_ne_zero] at hhalf
    exact_mod_cast (by linarith : (2 : ℚ) ^ b.places = 2 * b.rest)
  rw [evenMagnitude_eq, Nat.even_iff]
  split <;> omega

theorem evenMagnitude_of_rest (h : b.rest = 0) : (b.evenMagnitude : ℚ) = b.magnitude := by
  have hunit := Nat.two_pow_pos b.places
  rw [magnitude_eq, evenMagnitude_eq, if_neg (by omega), h, Nat.cast_zero, zero_div, add_zero]

theorem evenMagnitude_short (h : b.rest ≠ 0) (hshort : b.mantissa < 2 ^ 53) :
    b.evenMagnitude < 2 ^ 53 := by
  have hneg : b.exponent < 0 := by
    by_contra hnonneg
    exact h (if_neg hnonneg)
  have hwhole : b.whole ≤ b.mantissa / 2 ^ 1 := by
    rw [whole, if_pos hneg]
    refine Nat.div_le_div_left ?_ two_pos
    exact Nat.pow_le_pow_right two_pos (by unfold places; omega)
  rw [evenMagnitude_eq]
  split <;> omega

end Binary

theorem exists_ofFloat? (h : Measures f.toModel.unpack s x) :
    ∃ b, Binary.ofFloat? f = some b ∧ b.magnitude = x ∧ b.mantissa < 2 ^ 53 ∧
      (if b.negative then Sign.negative else Sign.positive) = s := by
  unfold Binary.ofFloat?
  generalize f.toModel.unpack = u at h
  cases h with
  | zero => cases s <;> exact ⟨_, rfl, by simp [Binary.magnitude], by decide, rfl⟩
  | @finite s m e h hpos => cases s <;> exact ⟨_, rfl, rfl, h.short, rfl⟩

theorem measures_toFloat {negative : Bool} {n : ℕ} (h : n < 2 ^ 53) :
    Measures (Binary.toFloat ⟨negative, n, 0⟩).toModel.unpack
      (if negative then .negative else .positive) n := by
  unfold Binary.toFloat
  dsimp only
  generalize (if negative then Sign.negative else Sign.positive) = s
  rcases Nat.eq_zero_or_pos n with rfl | hpos
  · have hzero : (Float.Model.pack (.zero s)).unpack = .zero s := unpack_packedZero
    rw [if_pos rfl, Nat.cast_zero]
    show Measures (Float.Model.pack (.zero s)).unpack s 0
    rw [hzero]
    exact .zero s
  · obtain ⟨z, hz, hround⟩ := nearEven_round s hpos 0
    obtain rfl : z = n := by
      rw [hz.near.eq_of_short h (by decide), zpow_zero, mul_one]
    rw [if_neg hpos.ne']
    have hshort : (n : ℚ) < 2 ^ 53 := by exact_mod_cast h
    exact hround.reaches_pack.measures (lt_of_le_two_pow (by linarith))

theorem measures_roundEven (h : Measures f.toModel.unpack s x) :
    ∃ n : ℕ, Measures (Float64.roundEven f).toModel.unpack s n ∧ |n - x| ≤ 1 / 2 ∧
      (|n - x| = 1 / 2 → Even n) := by
  obtain ⟨b, hb, rfl, hshort, rfl⟩ := exists_ofFloat? h
  refine ⟨b.evenMagnitude, ?_, b.evenMagnitude_close, Binary.even_evenMagnitude⟩
  unfold Float64.roundEven Float64.roundWith
  rw [hb]
  dsimp only
  split
  · rename_i hrest
    rwa [Binary.evenMagnitude_of_rest hrest]
  · rename_i hrest
    exact measures_toFloat (Binary.evenMagnitude_short hrest hshort)

end ChatAgent
