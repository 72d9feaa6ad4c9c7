import ChatAgent.Number.Basic
import ChatAgent.Number.Binary
import Mathlib.Tactic.Ring

/-!
# Rounding integers to 53 binary digits

An integer that needs more digits is rounded to the nearest one that does not, of two to the even
one (`nearest`). Rounding keeps the order, though not strictly, and moves a 64-bit integer by at
most 512.
-/

namespace ChatAgent

namespace Binary

variable {m n j k : Nat}

/-! ## Leaving out binary digits -/

/-- The integer nearest to `m / 2 ^ k`, of two the even one. -/
def evenQuotient (m k : Nat) : Nat := evenMagnitude ⟨false, m, -k⟩

theorem evenQuotient_eq (m k : Nat) :
    evenQuotient m k =
      if 2 ^ k < 2 * (m % 2 ^ k) ∨ 2 ^ k = 2 * (m % 2 ^ k) ∧ m / 2 ^ k % 2 = 1 then m / 2 ^ k + 1
      else m / 2 ^ k := by
  cases k with
  | zero => simp [evenQuotient, evenMagnitude, whole, rest, Nat.mod_one]
  | succ k =>
    have hneg : -((k + 1 : Nat) : Int) < 0 := by omega
    have hplaces : places ⟨false, m, -(k + 1 : Nat)⟩ = k + 1 := by simp [places]
    simp only [evenQuotient, evenMagnitude, whole, rest, hplaces, if_pos hneg]
    rfl

theorem evenQuotient_scale (m k i : Nat) :
    evenQuotient (m * 2 ^ i) (k + i) = evenQuotient m k := by
  have hpos := Nat.two_pow_pos i
  have hdouble (r : Nat) : 2 * (r * 2 ^ i) = 2 * r * 2 ^ i := by ring
  rw [evenQuotient_eq, evenQuotient_eq, Nat.pow_add, Nat.mul_div_mul_right _ _ hpos,
    Nat.mul_mod_mul_right, hdouble]
  simp only [Nat.mul_lt_mul_right hpos, Nat.mul_left_inj hpos.ne']

theorem evenQuotient_zero (m : Nat) : evenQuotient m 0 = m := by
  rw [evenQuotient_eq]
  simp [Nat.mod_one]

theorem evenQuotient_exact (n k : Nat) : evenQuotient (n * 2 ^ k) k = n := by
  have h := evenQuotient_scale n 0 k
  rwa [Nat.zero_add, evenQuotient_zero] at h

theorem evenQuotient_mono (h : m ≤ n) : evenQuotient m k ≤ evenQuotient n k := by
  have hdiv : m / 2 ^ k ≤ n / 2 ^ k := Nat.div_le_div_right h
  rw [evenQuotient_eq, evenQuotient_eq]
  rcases Nat.lt_or_eq_of_le hdiv with hlt | heq
  · split <;> split <;> omega
  · -- the quotients agree, so the remainders are in order
    have hm := Nat.div_add_mod m (2 ^ k)
    have hn := Nat.div_add_mod n (2 ^ k)
    rw [heq] at hm ⊢
    split <;> split <;> omega

/-- What is left out, or added, is at most half a unit. -/
theorem evenQuotient_near (m k : Nat) :
    2 * (evenQuotient m k * 2 ^ k) ≤ 2 * m + 2 ^ k ∧
      2 * m ≤ 2 * (evenQuotient m k * 2 ^ k) + 2 ^ k := by
  have hm := Nat.div_add_mod' m (2 ^ k)
  have hmod := Nat.mod_lt m (Nat.two_pow_pos k)
  rw [evenQuotient_eq]
  split
  · rw [Nat.add_mul]
    omega
  · omega

/-! ## The significand -/

/-- The 53 leading binary digits, the last of them rounded; that may make it `2 ^ 53`. -/
def significand (n : Nat) : Nat := evenQuotient (n * 2 ^ 52) n.log2

theorem evenQuotient_eq_significand (h : k + 52 = n.log2 + j) :
    evenQuotient (n * 2 ^ j) k = significand n :=
  calc evenQuotient (n * 2 ^ j) k
      = evenQuotient (n * 2 ^ j * 2 ^ 52) (k + 52) := (evenQuotient_scale _ _ _).symm
    _ = evenQuotient (n * 2 ^ 52 * 2 ^ j) (n.log2 + j) := by rw [h, Nat.mul_right_comm]
    _ = significand n := evenQuotient_scale _ _ _

theorem le_significand (h : n ≠ 0) : 2 ^ 52 ≤ significand n := by
  have hlow := Nat.mul_le_mul_left (2 ^ 52) (Nat.log2_self_le h)
  rw [Nat.mul_comm (2 ^ 52) n] at hlow
  have := evenQuotient_mono (k := n.log2) hlow
  rwa [evenQuotient_exact] at this

theorem significand_le (n : Nat) : significand n ≤ 2 ^ 53 := by
  have hhigh : n * 2 ^ 52 ≤ 2 ^ 53 * 2 ^ n.log2 := by
    have := Nat.mul_le_mul_right (2 ^ 52) (Nat.lt_log2_self (n := n)).le
    rw [Nat.pow_succ] at this
    omega
  have := evenQuotient_mono (k := n.log2) hhigh
  rwa [evenQuotient_exact] at this

/-- The nearest number with zeros behind its 53 leading binary digits. -/
def nearestMagnitude (n : Nat) : Nat := evenQuotient n (n.log2 - 52) * 2 ^ (n.log2 - 52)

theorem nearestMagnitude_of_le (h : n ≤ 2 ^ 53) : nearestMagnitude n = n := by
  rcases Nat.lt_or_eq_of_le h with hlt | rfl
  · rcases Nat.eq_zero_or_pos n with rfl | hpos
    · decide
    · have hlog : n.log2 < 53 := (Nat.log2_lt hpos.ne').mpr hlt
      rw [nearestMagnitude, Nat.sub_eq_zero_of_le (by omega), evenQuotient_zero, Nat.pow_zero,
        Nat.mul_one]
  · decide +kernel

theorem significand_mul (n : Nat) : significand n * 2 ^ n.log2 = nearestMagnitude n * 2 ^ 52 := by
  rcases Nat.le_total 52 n.log2 with hlong | hshort
  · have hlog : n.log2 = n.log2 - 52 + 52 := by omega
    have hdigits := evenQuotient_eq_significand (n := n) (j := 0) (k := n.log2 - 52) (by omega)
    rw [Nat.pow_zero, Nat.mul_one] at hdigits
    rw [nearestMagnitude, hdigits, Nat.mul_assoc, ← Nat.pow_add, ← hlog]
  · -- nothing is left out
    have hpow : 2 ^ 52 = 2 ^ (52 - n.log2) * 2 ^ n.log2 := by
      rw [← Nat.pow_add, Nat.sub_add_cancel hshort]
    have hsmall : n ≤ 2 ^ 53 := by
      have hlt := Nat.lt_log2_self (n := n)
      have hle : 2 ^ (n.log2 + 1) ≤ 2 ^ 53 := Nat.pow_le_pow_right (by omega) (by omega)
      omega
    rw [nearestMagnitude_of_le hsmall, significand, hpow, ← Nat.mul_assoc, evenQuotient_exact]

theorem nearestMagnitude_mono (h : m ≤ n) : nearestMagnitude m ≤ nearestMagnitude n := by
  rcases Nat.eq_zero_or_pos m with rfl | hm
  · exact Nat.zero_le _
  have hlog : m.log2 ≤ n.log2 :=
    (Nat.le_log2 (by omega)).mpr ((Nat.log2_self_le hm.ne').trans h)
  rcases Nat.lt_or_eq_of_le hlog with hlt | heq
  · -- the lesser one is at most the power of two at which the greater one begins
    have hpow : 2 ^ (m.log2 + 1) ≤ 2 ^ n.log2 := Nat.pow_le_pow_right (by omega) hlt
    have hle :=
      calc nearestMagnitude m * 2 ^ 52
          = significand m * 2 ^ m.log2 := (significand_mul m).symm
        _ ≤ 2 ^ 53 * 2 ^ m.log2 := Nat.mul_le_mul_right _ (significand_le m)
        _ = 2 ^ 52 * 2 ^ (m.log2 + 1) := by ring
        _ ≤ 2 ^ 52 * 2 ^ n.log2 := Nat.mul_le_mul_left _ hpow
        _ ≤ significand n * 2 ^ n.log2 := Nat.mul_le_mul_right _ (le_significand (by omega))
        _ = nearestMagnitude n * 2 ^ 52 := significand_mul n
    exact Nat.le_of_mul_le_mul_right hle (Nat.two_pow_pos 52)
  · rw [nearestMagnitude, nearestMagnitude, heq]
    exact Nat.mul_le_mul_right _ (evenQuotient_mono h)

theorem nearestMagnitude_near (h : n ≤ 2 ^ 63) :
    nearestMagnitude n ≤ n + 512 ∧ n ≤ nearestMagnitude n + 512 := by
  rcases Nat.lt_or_eq_of_le h with hlt | rfl
  · have hlog : n.log2 - 52 ≤ 10 := by
      rcases Nat.eq_zero_or_pos n with rfl | hpos
      · decide
      · have := (Nat.log2_lt hpos.ne').mpr hlt
        omega
    have hunit : 2 ^ (n.log2 - 52) ≤ 2 ^ 10 := Nat.pow_le_pow_right (by omega) hlog
    have hnear := evenQuotient_near n (n.log2 - 52)
    rw [← nearestMagnitude] at hnear
    omega
  · decide +kernel

end Binary

/-- The integer that the nearest float of an integer is. -/
def nearest : Int → Int
  | .ofNat n => Binary.nearestMagnitude n
  | .negSucc n => -Binary.nearestMagnitude (n + 1)

theorem nearest_natCast (n : Nat) : nearest n = Binary.nearestMagnitude n := rfl

theorem nearest_neg_natCast (n : Nat) : nearest (-n) = -Binary.nearestMagnitude n := by
  cases n with
  | zero => decide
  | succ n => rfl

theorem nearest_of_le {n : Int} (h : n.natAbs ≤ 2 ^ 53) : nearest n = n := by
  obtain ⟨n, rfl | rfl⟩ := n.eq_nat_or_neg
  · rw [Int.natAbs_natCast] at h
    rw [nearest_natCast, Binary.nearestMagnitude_of_le h]
  · rw [Int.natAbs_neg, Int.natAbs_natCast] at h
    rw [nearest_neg_natCast, Binary.nearestMagnitude_of_le h]

theorem nearest_mono {m n : Int} (h : m ≤ n) : nearest m ≤ nearest n := by
  obtain ⟨m, rfl | rfl⟩ := m.eq_nat_or_neg <;> obtain ⟨n, rfl | rfl⟩ := n.eq_nat_or_neg
  · have := Binary.nearestMagnitude_mono (Int.ofNat_le.mp h)
    rw [nearest_natCast, nearest_natCast]
    omega
  · obtain ⟨rfl, rfl⟩ : m = 0 ∧ n = 0 := by omega
    exact Int.le_refl _
  · rw [nearest_neg_natCast, nearest_natCast]
    omega
  · have := Binary.nearestMagnitude_mono (m := n) (n := m) (by omega)
    rw [nearest_neg_natCast, nearest_neg_natCast]
    omega

theorem FitsInt64.natAbs_le {n : Int} (h : FitsInt64 n) : n.natAbs ≤ 2 ^ 63 := by
  unfold FitsInt64 int64Min int64Max at h
  omega

theorem nearest_near {n : Int} (h : FitsInt64 n) : nearest n ≤ n + 512 ∧ n ≤ nearest n + 512 := by
  have hnear := Binary.nearestMagnitude_near h.natAbs_le
  obtain ⟨n, rfl | rfl⟩ := n.eq_nat_or_neg
  · rw [Int.natAbs_natCast] at hnear
    rw [nearest_natCast]
    omega
  · rw [Int.natAbs_neg, Int.natAbs_natCast] at hnear
    rw [nearest_neg_natCast]
    omega

end ChatAgent
