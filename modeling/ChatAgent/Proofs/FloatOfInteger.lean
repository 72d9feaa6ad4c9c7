import ChatAgent.Proofs.FloatArithmetic

/-!
# Integers as floats

The float of an integer is its nearest one, and floats of integers compare as their nearest integers
do (`ofInt_lt_iff`). Conversions round by shifting digits out to the right, of which two bits
remember what they were (`roundedMantissa_shiftRight`).
-/

namespace ChatAgent

open Float.Model (Format totalExponent UnpackedFloat)
open Float.Model.UnpackedFloat

/-! ## Shifting to the right -/

/-- Of the digits that are left out the first is kept, and whether there is a one behind it. -/
theorem shiftRight_succ (m k : Nat) :
    (⟨m, false, false⟩ : ExtendedMantissa) >>> (k + 1) =
      ⟨m / 2 ^ (k + 1), m / 2 ^ k % 2 != 0, m % 2 ^ k != 0⟩ := by
  induction k with
  | zero =>
    show ExtendedMantissa.shiftRightOne ⟨m, false, false⟩ = _
    simp [ExtendedMantissa.shiftRightOne, Nat.mod_one]
  | succ k ih =>
    show ExtendedMantissa.shiftRightOne ((⟨m, false, false⟩ : ExtendedMantissa) >>> (k + 1)) = _
    have hrest : (m / 2 ^ k % 2 != 0 || m % 2 ^ k != 0) = (m % 2 ^ (k + 1) != 0) := by
      rw [Nat.mod_pow_succ, Bool.eq_iff_iff]
      simp only [Bool.or_eq_true, bne_iff_ne, ne_eq, Nat.add_eq_zero_iff, Nat.mul_eq_zero,
        (Nat.two_pow_pos k).ne', false_or]
      omega
    rw [ih, ExtendedMantissa.shiftRightOne, hrest, Nat.div_div_eq_div_mul, ← Nat.pow_succ]

theorem roundedMantissa_mk (q : Nat) (half more : Bool) :
    (⟨q, half, more⟩ : ExtendedMantissa).roundedMantissa =
      if half ∧ (more ∨ q % 2 = 1) then q + 1 else q := by
  cases half <;> cases more <;>
    simp [ExtendedMantissa.roundedMantissa, ExtendedMantissa.accuracy, Accuracy.roundToNearestEven]
  split <;> omega

theorem roundedMantissa_shiftRight (m k : Nat) :
    ((⟨m, false, false⟩ : ExtendedMantissa) >>> k).roundedMantissa = Binary.evenQuotient m k := by
  cases k with
  | zero => exact (Binary.evenQuotient_zero m).symm
  | succ k =>
    have hrest := Nat.mod_pow_succ (x := m) (b := 2) (k := k)
    have hmod := Nat.mod_lt m (Nat.two_pow_pos k)
    rw [shiftRight_succ, roundedMantissa_mk, Binary.evenQuotient_eq]
    refine if_congr ?_ rfl rfl
    rw [hrest, bne_iff_ne, bne_iff_ne, Nat.pow_succ]
    rcases Nat.mod_two_eq_zero_or_one (m / 2 ^ k) with hbit | hbit <;> rw [hbit] <;> omega

/-! ## Floats in canonical form -/

variable {n j : Nat}

/-- The 53 digits `m`, of which the first is a one, are the integer `v` if the last one counts
`2 ^ (e - 52)`. -/
structure Normal (m e v : Nat) : Prop where
  low : 2 ^ 52 ≤ m
  high : m < 2 ^ 53
  short : e ≤ 64
  value : m * 2 ^ e = v * 2 ^ 52

/-- The float is in canonical form and is the integer. -/
inductive Denotes : UnpackedFloat → Int → Prop where
  | zero (s : Sign) : Denotes (.zero s) 0
  | finite (s : Sign) {m e v : Nat} (h : Normal m e v) (hpos : 0 < m) :
      Denotes (.finite s m ((e : Int) - 52) hpos) (s.apply v)

theorem shiftToTargetExponent_eq {m d k : Nat} {e : Int} (hlog : m.log2 + e = d)
    (hk : e + k = (d : Int) - 52) :
    shiftToTargetExponent .binary64 m e .exact =
      ((⟨m, false, false⟩ : ExtendedMantissa) >>> k, (d : Int) - 52) :=
  shiftToTargetExponent_of_le .exact (by omega) hk

theorem denotes_roundWithAccuracy (s : Sign) (h : n ≠ 0) (hlog : n.log2 ≤ 63)
    (hj : 52 ≤ n.log2 + j) :
    Denotes (roundWithAccuracy .binary64 s (n * 2 ^ j) (-(j : Int)) .exact)
      (s.apply (Binary.nearestMagnitude n)) := by
  have hfirst := shiftToTargetExponent_eq (m := n * 2 ^ j) (d := n.log2) (e := -(j : Int))
    (k := n.log2 + j - 52) (by rw [log2_mul_two_pow h]; omega) (by omega)
  have hlow := Binary.le_significand h
  have hmul := Binary.significand_mul n
  have hround := roundedMantissa_shiftRight (n * 2 ^ j) (n.log2 + j - 52)
  rw [Binary.evenQuotient_eq_significand (by omega)] at hround
  unfold roundWithAccuracy
  rw [hfirst]
  dsimp only
  rw [hround]
  rcases Nat.lt_or_eq_of_le (Binary.significand_le n) with hlt | heq
  · have hdigits : (Binary.significand n).log2 = 52 :=
      (Nat.log2_eq_iff (by omega)).mpr ⟨hlow, hlt⟩
    rw [shiftToTargetExponent_eq (d := n.log2) (k := 0) (by omega) (by omega)]
    have hne : ((⟨Binary.significand n, false, false⟩ : ExtendedMantissa) >>> 0).mantissa ≠ 0 :=
      show Binary.significand n ≠ 0 by omega
    rw [dif_neg hne]
    exact .finite s ⟨hlow, hlt, by omega, hmul⟩ _
  · -- rounding has made it a power of two, with one digit more
    rw [heq] at hmul ⊢
    rw [shiftToTargetExponent_eq (d := n.log2 + 1) (k := 1)
      (by rw [Nat.log2_two_pow]; omega) (by omega)]
    have hcarry : 2 ^ 52 * 2 ^ (n.log2 + 1) = Binary.nearestMagnitude n * 2 ^ 52 := by
      rw [← hmul]
      ring
    exact .finite s ⟨Nat.le_refl _, by decide, by omega, hcarry⟩ (Nat.two_pow_pos 52)

namespace Normal

variable {m e v m' e' v' : Nat}

theorem canonical (h : Normal m e v) : Canonical m ((e : Int) - 52) :=
  ⟨h.high, by omega, .inr h.low⟩

theorem pos (h : Normal m e v) : 0 < v := by
  have hm : 0 < m * 2 ^ e := Nat.mul_pos (by have := h.low; omega) (Nat.two_pow_pos e)
  rw [h.value] at hm
  omega

theorem lt_of_lt (h : Normal m e v) (h' : Normal m' e' v') (hlt : e < e') : v < v' := by
  have hpow : 2 ^ (e + 1) ≤ 2 ^ e' := Nat.pow_le_pow_right (by omega) hlt
  have hvalue :=
    calc v * 2 ^ 52
        = m * 2 ^ e := h.value.symm
      _ < 2 ^ 53 * 2 ^ e := Nat.mul_lt_mul_of_pos_right h.high (Nat.two_pow_pos e)
      _ = 2 ^ 52 * 2 ^ (e + 1) := by ring
      _ ≤ 2 ^ 52 * 2 ^ e' := Nat.mul_le_mul_left _ hpow
      _ ≤ m' * 2 ^ e' := Nat.mul_le_mul_right _ h'.low
      _ = v' * 2 ^ 52 := h'.value
  exact Nat.lt_of_mul_lt_mul_right hvalue

theorem lt_iff (h : Normal m e v) (h' : Normal m' e v') : m < m' ↔ v < v' := by
  rw [← Nat.mul_lt_mul_right (Nat.two_pow_pos e), h.value, h'.value,
    Nat.mul_lt_mul_right (Nat.two_pow_pos 52)]

/-- Magnitudes compare as their exponents do, and then as their digits. -/
theorem compare_eq (h : Normal m e v) (h' : Normal m' e' v') :
    (compare ((e : Int) - 52) ((e' : Int) - 52)).then (compare m m') = compare v v' := by
  rcases Nat.lt_trichotomy e e' with hlt | rfl | hgt
  · have hv := h.lt_of_lt h' hlt
    rw [Int.compare_eq_lt.mpr (by omega), Nat.compare_eq_lt.mpr hv]
    rfl
  · rw [Int.compare_eq_eq.mpr rfl]
    show compare m m' = compare v v'
    simp only [Nat.compare_eq_ite_lt, h.lt_iff h', h'.lt_iff h]
  · have hv := h'.lt_of_lt h hgt
    rw [Int.compare_eq_gt.mpr (by omega), Nat.compare_eq_gt.mpr hv]
    rfl

end Normal

namespace Denotes

variable {u w : UnpackedFloat} {v x : Int}

theorem unpack_pack (h : Denotes u v) : (Float.Model.pack u).unpack = u := by
  cases h with
  | zero s => exact unpack_packedZero
  | finite s h hpos =>
    have hshort := h.short
    exact h.canonical.unpack_pack (by omega) s hpos

theorem neg (h : Denotes u v) : Denotes u.neg (-v) := by
  cases h with
  | zero s => exact .zero _
  | @finite s m e v h hpos =>
    cases s with
    | positive => exact .finite .negative h hpos
    | negative =>
      have hneg : -(Sign.negative.apply v) = Sign.positive.apply v := Int.neg_neg v
      rw [hneg]
      exact .finite .positive h hpos

theorem exists_measures (h : Denotes u v) :
    ∃ (s : Sign) (n : Nat), Measures u s n ∧ v = s.apply n := by
  cases h with
  | zero s => exact ⟨s, 0, .zero s, by cases s <;> rfl⟩
  | @finite s m e n h hpos =>
    have hvalue : (m : ℚ) * 2 ^ e = n * 2 ^ 52 := by exact_mod_cast h.value
    have hmagnitude : (m : ℚ) * 2 ^ ((e : Int) - 52) = n := by
      rw [zpow_sub₀ two_ne_zero, zpow_natCast]
      field_simp
      rw [hvalue, mul_comm]
    exact ⟨s, n, hmagnitude ▸ .finite s h.canonical hpos, rfl⟩

theorem lt_iff (h : Denotes u v) (h' : Denotes w x) : u.lt w ↔ v < x := by
  rw [UnpackedFloat.lt, beq_iff_eq]
  cases h with
  | zero s =>
    cases h' with
    | zero s' => simp [UnpackedFloat.compare]
    | finite s' h' =>
      have hpos := h'.pos
      cases s' <;> simp [UnpackedFloat.compare, Sign.apply, hpos]
  | finite s h =>
    have hpos := h.pos
    cases h' with
    | zero s' => cases s <;> simp [UnpackedFloat.compare, Sign.apply, hpos]
    | finite s' h' =>
      cases s <;> cases s' <;>
        simp [UnpackedFloat.compare, Sign.apply, h.compare_eq h', Nat.compare_eq_lt,
          Nat.compare_eq_gt]
      omega

theorem mul_one {n : Nat} (h : Denotes u n) (hn : n < 2 ^ 53) :
    Denotes (mul .binary64 u (.finite .positive (2 ^ 52) (-52) (by decide))) n := by
  generalize hv : (n : Int) = v at h
  cases h with
  | zero s => exact .zero _
  | @finite s m e v h hpos =>
    cases s with
    | negative =>
      have hneg : (n : Int) = -v := hv
      have := h.pos
      omega
    | positive =>
      obtain rfl : n = v := Int.ofNat.inj hv
      have hplaces : e ≤ 52 := by
        by_contra hlong
        have hpow : 2 ^ 53 ≤ 2 ^ e := Nat.pow_le_pow_right (by omega) (by omega)
        have hbig := Nat.mul_le_mul h.low hpow
        rw [h.value] at hbig
        omega
      have hdigits : n * 2 ^ (104 - e) = m * 2 ^ 52 := by
        have hscaled : n * 2 ^ (104 - e) * 2 ^ e = m * 2 ^ 52 * 2 ^ e := by
          rw [Nat.mul_assoc, ← Nat.pow_add, Nat.sub_add_cancel (by omega), Nat.mul_right_comm m,
            h.value, Nat.mul_assoc, ← Nat.pow_add]
        exact Nat.eq_of_mul_eq_mul_right (Nat.two_pow_pos e) hscaled
      have hexponent : (e : Int) - 52 + -52 = -((104 - e : Nat) : Int) := by omega
      have hlog : n.log2 ≤ 52 := Nat.le_of_lt_succ ((Nat.log2_lt h.pos.ne').mpr hn)
      have hround := denotes_roundWithAccuracy (j := 104 - e) .positive h.pos.ne' (by omega)
        (by omega)
      rw [Binary.nearestMagnitude_of_le hn.le, hdigits, ← hexponent] at hround
      exact hround

end Denotes

/-! ## Floats of integers -/

theorem denotes_normalize {n : Nat} (h : n < 2 ^ 53) :
    Denotes (UnpackedFloat.normalize .binary64 n 0 .positive) n := by
  rcases Nat.eq_zero_or_pos n with rfl | hpos
  · exact .zero .positive
  · have hlog : n.log2 ≤ 52 := Nat.le_of_lt_succ ((Nat.log2_lt hpos.ne').mpr h)
    have hcompare : compare (n : Int) 0 = .gt := Int.compare_eq_gt.mpr (by omega)
    have hround := denotes_roundWithAccuracy (j := 52 - n.log2) .positive hpos.ne' (by omega)
      (by omega)
    rw [Binary.nearestMagnitude_of_le h.le] at hround
    have htarget : max ((n.log2 : Int) + 0 - 52) (-1074) = (n.log2 : Int) - 52 := by omega
    have hamount : (-((n.log2 : Int) - 52)).toNat = 52 - n.log2 := by omega
    simp only [UnpackedFloat.normalize, hcompare, UnpackedFloat.round, Int.toNat_natCast,
      targetExponent_totalExponent, htarget, decreaseExponent, Int.zero_sub, hamount,
      Nat.shiftLeft_eq]
    exact hround

theorem ofScientific_zero {n : Nat} (h : n ≠ 0) :
    ofScientific .binary64 n 0 =
      roundWithAccuracy .binary64 .positive (n * 2 ^ 53) (-(53 : Nat)) .exact := by
  have hbits : (2 : Int) ^ Format.binary64.exponentBits = 2048 := rfl
  have hdigits : n <<< Format.binary64.mantissaBits * 10 ^ (0 : Int).toNat = n * 2 ^ 53 := by
    show n <<< 53 * 1 = n * 2 ^ 53
    rw [Nat.mul_one, Nat.shiftLeft_eq]
  have hexponent : -(Format.binary64.mantissaBits : Int) + 0 = -(53 : Nat) := rfl
  rw [ofScientific, dif_neg h, if_neg (by rw [hbits]; omega), if_neg (by rw [hbits]; omega),
    if_pos (Int.le_refl 0), mul, hdigits, hexponent]
  rfl

theorem ofNat_of_lt {n : Nat} (h : n < 2 ^ 53) :
    Float.ofNat n = (UInt64.ofNat n).toFloat * Float.ofBits 0x3FF0000000000000 := by
  show Float.ofScientific n false 0 = _
  unfold Float.ofScientific
  rw [dif_pos ⟨h, by omega⟩]
  rfl

theorem ofNat_of_ge {n : Nat} (h : 2 ^ 53 ≤ n) :
    Float.ofNat n = .ofModel (.ofScientific n 0) := by
  show Float.ofScientific n false 0 = _
  unfold Float.ofScientific
  rw [dif_neg (by omega)]
  rfl

/-- Short integers become a word, then a float, and are multiplied by one. -/
theorem denotes_ofNat_of_lt {n : Nat} (h : n < 2 ^ 53) :
    Denotes (Float.ofNat n).toModel.unpack n := by
  have hnormal := denotes_normalize h
  have hword : (UInt64.ofNat n).toNat = n := by
    rw [UInt64.toNat_ofNat']
    omega
  have hfactor : (UInt64.ofNat n).toFloat.toModel.unpack =
      UnpackedFloat.normalize .binary64 n 0 .positive := by
    show (Float.Model.pack
      (UnpackedFloat.normalize .binary64 (UInt64.ofNat n).toNat 0 .positive)).unpack = _
    rw [hword, hnormal.unpack_pack]
  have hone : (Float.ofBits 0x3FF0000000000000).toModel.unpack =
      .finite .positive (2 ^ 52) (-52) (by decide) := rfl
  have hmul := hnormal.mul_one h
  rw [ofNat_of_lt h]
  show Denotes (Float.Model.pack (mul .binary64 (UInt64.ofNat n).toFloat.toModel.unpack
    (Float.ofBits 0x3FF0000000000000).toModel.unpack)).unpack n
  rw [hfactor, hone, hmul.unpack_pack]
  exact hmul

theorem denotes_ofNat {n : Nat} (h : n ≤ 2 ^ 63) :
    Denotes (Float.ofNat n).toModel.unpack (Binary.nearestMagnitude n) := by
  rcases Nat.lt_or_ge n (2 ^ 53) with hshort | hlong
  · rw [Binary.nearestMagnitude_of_le hshort.le]
    exact denotes_ofNat_of_lt hshort
  · have hne : n ≠ 0 := by omega
    have hlog : n.log2 ≤ 63 := Nat.le_of_lt_succ ((Nat.log2_lt hne).mpr (by omega))
    have hround := denotes_roundWithAccuracy (j := 53) .positive hne hlog (by omega)
    rw [ofNat_of_ge hlong]
    show Denotes (Float.Model.pack (ofScientific .binary64 n 0)).unpack _
    rw [ofScientific_zero hne, hround.unpack_pack]
    exact hround

theorem denotes_ofInt {n : Int} (h : FitsInt64 n) :
    Denotes (Float.ofInt n).toModel.unpack (nearest n) := by
  have hmagnitude := h.natAbs_le
  cases n with
  | ofNat n => exact denotes_ofNat hmagnitude
  | negSucc n =>
    have hneg : Denotes (Float.ofNat (n + 1)).toModel.unpack.neg (nearest (.negSucc n)) :=
      (denotes_ofNat hmagnitude).neg
    show Denotes (Float.Model.pack (Float.ofNat (n + 1)).toModel.unpack.neg).unpack _
    rw [hneg.unpack_pack]
    exact hneg

theorem ofInt_lt_iff {a b : Int} (ha : FitsInt64 a) (hb : FitsInt64 b) :
    Float.ofInt a < Float.ofInt b ↔ nearest a < nearest b := by
  show (decide ((Float.ofInt a).toModel.lt (Float.ofInt b).toModel = true)) = true ↔ _
  rw [decide_eq_true_iff]
  exact (denotes_ofInt ha).lt_iff (denotes_ofInt hb)

end ChatAgent
