import ChatAgent.Calculator.Evaluation
import ChatAgent.Proofs.FloatOfInteger
import ChatAgent.Proofs.PowerOfTen

/-!
# Integers rounded to tens

An integer is rounded to a multiple of `10 ^ k` by way of floats (`Steps`). Each of the steps is off
by little, and with 52 binary digits by so little that the right multiple is found
(`Steps.nearest`), and comes out as it is if the reciprocal of `10 ^ k` is close enough
(`Steps.back_exact`); else it may come out one less (`round_tens`, `not_round_tens`).
-/

namespace ChatAgent.Calculator

open Float.Model (UnpackedFloat)
open Float.Model.UnpackedFloat
open Float64 (powerOfTen)

theorem toInteger_of_measures {f : Float} {s : Sign} {x : ℚ} (h : Measures f.toModel.unpack s x) :
    toInteger f = exact (s.apply ⌊x⌋₊) := by
  obtain ⟨b, hb, rfl, -, rfl⟩ := exists_ofFloat? h
  rw [toInteger, hb]
  show exact b.truncate = _
  rw [Binary.truncate, Binary.whole_eq_floor]
  cases b.negative <;> rfl

/-- A magnitude `v` is scaled down by `c`, rounded to an integer `q`, and scaled up again to `w`. -/
structure Steps (v : ℕ) (c y : ℚ) (q : ℕ) (w : ℚ) : Prop where
  scaled : Near (v * c) y
  close : |q - y| ≤ 1 / 2
  even : |q - y| = 1 / 2 → Even q
  back : Near (q / c) w

theorem natAbs_nearest_le {n : Int} (hn : FitsInt64 n) : (nearest n).natAbs ≤ 2 ^ 63 + 512 := by
  have := nearest_near hn
  unfold FitsInt64 int64Min int64Max at hn
  omega

theorem natAbs_apply (s : Sign) (n : ℕ) : (s.apply n).natAbs = n := by
  cases s <;> simp [Sign.apply]

theorem exists_steps {n : Int} {d : Int} {c : ℚ} (hn : FitsInt64 n)
    (hc : Measures (powerOfTen d).toModel.unpack .positive c) (hpos : 0 < c) (hle : c ≤ 1) :
    ∃ (s : Sign) (v q : ℕ) (y w : ℚ), nearest n = s.apply v ∧ v ≤ 2 ^ 63 + 512 ∧ Steps v c y q w ∧
      (w < 2 ^ 1024 → toInteger (roundTo (Float.ofInt n) d) = exact (s.apply ⌊w⌋₊)) := by
  obtain ⟨s, v, hv, hnearest⟩ := (denotes_ofInt hn).exists_measures
  have hlarge : v ≤ 2 ^ 63 + 512 := by
    have := natAbs_nearest_le hn
    rwa [hnearest, natAbs_apply] at this
  have hlarge' : (v : ℚ) ≤ 2 ^ 64 := by exact_mod_cast hlarge.trans (by decide)
  obtain ⟨y, hscaled, hy⟩ := reaches_mul hv hc
  have hproduct : v * c ≤ (1 : ℕ) * 2 ^ (64 : ℤ) :=
    calc v * c ≤ v := mul_le_of_le_one_right (by positivity) hle
      _ ≤ (1 : ℕ) * 2 ^ (64 : ℤ) := by
          rw [Nat.cast_one, one_mul]
          exact hlarge'
  have hlimit := hscaled.le_of_le (by decide) (by decide) hproduct
  have hlimit : y ≤ 2 ^ 66 := hlimit.trans (by norm_num)
  obtain ⟨q, hq, hclose, heven⟩ := measures_roundEven (hy.measures (lt_of_le_two_pow hlimit))
  obtain ⟨w, hback, hw⟩ := reaches_div hq hc hpos.ne'
  have hsign : s * .positive / .positive = s := by cases s <;> rfl
  rw [hsign] at hw
  exact ⟨s, v, q, y, w, hnearest, hlarge, ⟨hscaled, hclose, heven, hback⟩,
    fun h => toInteger_of_measures (hw.measures h)⟩

theorem normal_of_le {x : ℚ} (h : 2 ^ (-66 : ℤ) ≤ x) : x = 0 ∨ 2 ^ (-1022 : ℤ) ≤ x :=
  .inr ((zpow_le_zpow_right₀ one_le_two (by decide)).trans h)

theorem abs_mul_reciprocal_sub_le {a δ : ℚ} (ha : 0 ≤ a) (hδ : |δ| ≤ 3 / 2 ^ 55) :
    |a * (1 + δ) - a| ≤ a * (3 / 2 ^ 55) := by
  have hdiff : a * (1 + δ) - a = a * δ := by ring
  rw [hdiff, abs_mul, abs_of_nonneg ha]
  exact mul_le_mul_of_nonneg_left hδ ha

namespace Steps

variable {v q k : ℕ} {y w δ : ℚ}

theorem scaled_close (h : Steps v ((1 + δ) / 10 ^ k) y q w) (hδ : |δ| ≤ 3 / 2 ^ 55)
    (hk : k ≤ 19) : |y - v / 10 ^ k| ≤ v / 10 ^ k * (15 / 2 ^ 56) := by
  obtain ⟨hδ1, hδ2⟩ := abs_le.mp hδ
  have hten : (0 : ℚ) < 10 ^ k := by positivity
  have ht : (0 : ℚ) ≤ v / 10 ^ k := by positivity
  have hx : v * ((1 + δ) / 10 ^ k) = v / 10 ^ k * (1 + δ) := by ring
  have hnormal : v / 10 ^ k * (1 + δ) = 0 ∨ (2 : ℚ) ^ (-1022 : ℤ) ≤ v / 10 ^ k * (1 + δ) := by
    rcases Nat.eq_zero_or_pos v with rfl | hv
    · left
      rw [Nat.cast_zero, zero_div, zero_mul]
    · have hone : (1 : ℚ) ≤ v := by exact_mod_cast hv
      have hpower : (10 : ℚ) ^ k ≤ 10 ^ 19 := pow_le_pow_right₀ (by norm_num) hk
      refine normal_of_le ?_
      calc (2 : ℚ) ^ (-66 : ℤ) ≤ 1 / 10 ^ 19 * (1 / 2) := by norm_num
        _ ≤ v / 10 ^ k * (1 + δ) :=
            mul_le_mul (div_le_div₀ (by positivity) hone hten hpower) (by linarith) (by norm_num) ht
  have hround := h.scaled
  rw [hx] at hround
  obtain ⟨hr1, hr2⟩ := abs_le.mp (hround.relative hnormal)
  obtain ⟨ha1, ha2⟩ := abs_le.mp (abs_mul_reciprocal_sub_le ht hδ)
  rw [abs_le]
  constructor <;> linarith

/-- The multiple of `10 ^ k` that is found is as far away as one of the nearest, but for what the
scaling is off. -/
theorem near (h : Steps v ((1 + δ) / 10 ^ k) y q w) (hδ : |δ| ≤ 3 / 2 ^ 55) (hk : k ≤ 19) :
    |(q : ℚ) * 10 ^ k - v| ≤ 10 ^ k / 2 + v * (15 / 2 ^ 56) := by
  have hten : (0 : ℚ) < 10 ^ k := by positivity
  have hsplit : (q : ℚ) * 10 ^ k - v = (q - y + (y - v / 10 ^ k)) * 10 ^ k := by
    field_simp
    ring
  rw [hsplit, abs_mul, abs_of_pos hten]
  calc |q - y + (y - v / 10 ^ k)| * 10 ^ k
      ≤ (1 / 2 + v / 10 ^ k * (15 / 2 ^ 56)) * 10 ^ k :=
        mul_le_mul_of_nonneg_right
          ((abs_add_le _ _).trans (add_le_add h.close (h.scaled_close hδ hk))) hten.le
    _ = 10 ^ k / 2 + v * (15 / 2 ^ 56) := by
        field_simp

theorem near_natAbs (h : Steps v ((1 + δ) / 10 ^ k) y q w) (hδ : |δ| ≤ 3 / 2 ^ 55) (hk : k ≤ 19) :
    (2 * ((v : ℤ) - (q * 10 ^ k : ℕ)).natAbs : ℚ) ≤ 10 ^ k + v * (15 / 2 ^ 55) := by
  have hnear := h.near hδ hk
  rw [abs_sub_comm] at hnear
  rw [Nat.cast_natAbs, Int.cast_abs]
  push_cast
  linarith

/-- With 52 digits the scaling is never off so much as to go past the middle between two
multiples, as `2 * v` and `10 ^ k` are even. -/
theorem nearest (h : Steps v ((1 + δ) / 10 ^ k) y q w) (hδ : |δ| ≤ 3 / 2 ^ 55) (hk0 : 0 < k)
    (hk : k ≤ 19) (hv : v ≤ 2 ^ 52) : 2 * ((v : ℤ) - (q * 10 ^ k : ℕ)).natAbs ≤ 10 ^ k := by
  have hnear := h.near_natAbs hδ hk
  have hv' : (v : ℚ) ≤ 2 ^ 52 := by exact_mod_cast hv
  have hlt : (2 * ((v : ℤ) - (q * 10 ^ k : ℕ)).natAbs : ℚ) < (10 ^ k + 2 : ℕ) := by
    push_cast at hnear ⊢
    linarith
  have hlt : 2 * ((v : ℤ) - (q * 10 ^ k : ℕ)).natAbs < 10 ^ k + 2 := by exact_mod_cast hlt
  obtain ⟨m, hm⟩ : 2 ∣ 10 ^ k := dvd_pow (by decide) hk0.ne'
  omega

/-- Halfway between two multiples there is an odd number of halves. -/
theorem exists_halves (hk0 : 0 < k) (hv : v ≤ 2 ^ 52)
    (htie : 2 * ((v : ℤ) - (q * 10 ^ k : ℕ)).natAbs = 10 ^ k) :
    ∃ a : ℕ, (v / 10 ^ k : ℚ) = a * 2 ^ (-1 : ℤ) ∧ 0 < a ∧ a < 2 ^ 53 ∧
      (a = 2 * q + 1 ∨ a + 1 = 2 * q) := by
  have hten : (0 : ℚ) < 10 ^ k := by positivity
  have hten' : 0 < 10 ^ k := Nat.pow_pos (by decide)
  obtain ⟨a, ha, hq⟩ : ∃ a : ℕ, 2 * v = a * 10 ^ k ∧ (a = 2 * q + 1 ∨ a + 1 = 2 * q) := by
    rcases Nat.le_total (q * 10 ^ k) v with hle | hle
    · refine ⟨2 * q + 1, ?_, .inl rfl⟩
      rw [Nat.add_mul, Nat.mul_assoc]
      omega
    · have hq : q ≠ 0 := by
        rintro rfl
        omega
      obtain ⟨i, hi⟩ := Nat.exists_eq_succ_of_ne_zero hq
      have hproduct : q * 10 ^ k = i * 10 ^ k + 10 ^ k := by rw [hi, Nat.succ_mul]
      refine ⟨2 * i + 1, ?_, .inr (by omega)⟩
      rw [Nat.add_mul, Nat.mul_assoc]
      omega
  have hle : a * 10 ^ 1 ≤ a * 10 ^ k := Nat.mul_le_mul_left a (Nat.pow_le_pow_right (by decide) hk0)
  refine ⟨a, ?_, by omega, by omega, hq⟩
  have ha : (2 * v : ℚ) = a * 10 ^ k := by exact_mod_cast ha
  rw [div_eq_iff hten.ne', zpow_neg_one]
  linarith

/-- Halfway between two multiples the scaling is exact if the reciprocal is close enough, so the
even one is taken. -/
theorem even_of_tie (h : Steps v ((1 + δ) / 10 ^ k) y q w) (hlow : -(9 / 10) / 2 ^ 54 ≤ δ)
    (hhigh : δ ≤ 1 / 2 ^ 54) (hk0 : 0 < k) (hv : v ≤ 2 ^ 52)
    (htie : 2 * ((v : ℤ) - (q * 10 ^ k : ℕ)).natAbs = 10 ^ k) : Even q := by
  obtain ⟨a, hmiddle, ha, hdigits, hq⟩ := exists_halves hk0 hv htie
  have hx : v * ((1 + δ) / 10 ^ k) = v / 10 ^ k * (1 + δ) := by ring
  have hround := h.scaled
  rw [hx] at hround
  have hpos : (0 : ℚ) < v / 10 ^ k := by
    have ha : (0 : ℚ) < a := by exact_mod_cast ha
    rw [hmiddle]
    positivity
  have habove := mul_le_mul_of_nonneg_left hhigh hpos.le
  have hbelow := mul_le_mul_of_nonneg_left hlow hpos.le
  have hy := hround.eq_of_close hmiddle hdigits (by decide) (by linarith) (by linarith)
  refine h.even ?_
  rw [hy, hmiddle, zpow_neg_one, abs_eq (by norm_num)]
  rcases hq with rfl | hq
  · right
    push_cast
    ring
  · left
    have hq : (a : ℚ) + 1 = 2 * q := by exact_mod_cast hq
    linarith

theorem back_eq (h : Steps v ((1 + δ) / 10 ^ k) y q w) :
    Near ((q * 10 ^ k : ℕ) / (1 + δ)) w := by
  have hx : ((q * 10 ^ k : ℕ) / (1 + δ) : ℚ) = q / ((1 + δ) / 10 ^ k) := by
    push_cast
    rw [div_div_eq_mul_div]
  rw [hx]
  exact h.back

/-- Scaling back is exact if the reciprocal is close enough. -/
theorem back_exact (h : Steps v ((1 + δ) / 10 ^ k) y q w) (hlow : -(9 / 10) / 2 ^ 54 ≤ δ)
    (hhigh : δ ≤ 1 / 2 ^ 54) (hshort : q * 10 ^ k < 2 ^ 53) : w = (q * 10 ^ k : ℕ) := by
  have hback := h.back_eq
  have hdigits : q * 5 ^ k < 2 ^ 53 :=
    lt_of_le_of_lt (Nat.mul_le_mul_left q (Nat.pow_le_pow_left (by decide) k)) hshort
  have hvalue : ((q * 10 ^ k : ℕ) : ℚ) = (q * 5 ^ k : ℕ) * 2 ^ (k : ℤ) := by
    have hten : (10 : ℚ) ^ k = 5 ^ k * 2 ^ k := by
      rw [← mul_pow]
      norm_num
    push_cast
    rw [hten, zpow_natCast, mul_assoc]
  generalize q * 10 ^ k = Y at hback hvalue
  have hone : 0 < 1 + δ := by linarith
  rcases Nat.eq_zero_or_pos Y with rfl | hpos
  · rw [Nat.cast_zero, zero_div] at hback
    rw [hback.eq_zero, Nat.cast_zero]
  · have hpos : (0 : ℚ) < Y := by exact_mod_cast hpos
    have habove : 1 / (1 + δ) ≤ 1 + 1 / 2 ^ 54 := by
      rw [div_le_iff₀ hone]
      linarith
    have hbelow : 1 - 1 / 2 ^ 54 < 1 / (1 + δ) := by
      rw [lt_div_iff₀ hone]
      linarith
    have habove := mul_le_mul_of_nonneg_left habove hpos.le
    have hbelow := mul_lt_mul_of_pos_left hbelow hpos
    rw [mul_one_div] at habove hbelow
    exact hback.eq_of_close hvalue hdigits (by omega) (by linarith) (by linarith)

/-- Otherwise it is off by two roundings at most. -/
theorem back_close (h : Steps v ((1 + δ) / 10 ^ k) y q w) (hδ : |δ| ≤ 3 / 2 ^ 55) :
    (q * 10 ^ k : ℕ) * (1 - 7 / 2 ^ 55) ≤ w ∧ w ≤ (q * 10 ^ k : ℕ) * (1 + 15 / 2 ^ 56) := by
  obtain ⟨hδ1, hδ2⟩ := abs_le.mp hδ
  have hback := h.back_eq
  generalize q * 10 ^ k = Y at hback ⊢
  have hone : 0 < 1 + δ := by linarith
  have hlow : 1 - 3 / 2 ^ 55 ≤ 1 / (1 + δ) := by
    rw [le_div_iff₀ hone]
    linarith
  have hhigh : 1 / (1 + δ) ≤ 1 + 13 / 2 ^ 57 := by
    rw [div_le_iff₀ hone]
    linarith
  have hlow := mul_le_mul_of_nonneg_left hlow (Nat.cast_nonneg Y)
  have hhigh := mul_le_mul_of_nonneg_left hhigh (Nat.cast_nonneg Y)
  rw [mul_one_div] at hlow hhigh
  have hnormal : (Y / (1 + δ) : ℚ) = 0 ∨ (2 : ℚ) ^ (-1022 : ℤ) ≤ Y / (1 + δ) := by
    rcases Nat.eq_zero_or_pos Y with rfl | hpos
    · left
      rw [Nat.cast_zero, zero_div]
    · have hone : (1 : ℚ) ≤ Y := by exact_mod_cast hpos
      refine normal_of_le (le_trans ?_ hlow)
      calc (2 : ℚ) ^ (-66 : ℤ) ≤ 1 * (1 - 3 / 2 ^ 55) := by norm_num
        _ ≤ Y * (1 - 3 / 2 ^ 55) := mul_le_mul_of_nonneg_right hone (by norm_num)
  obtain ⟨hr1, hr2⟩ := abs_le.mp (hback.relative hnormal)
  constructor <;> linarith

end Steps

/-- A magnitude `v` is rounded to the multiple `q` of `10 ^ k`, and that comes out as `r`. -/
structure Found (k v q r : ℕ) : Prop where
  near : 2 * ((v : ℤ) - (q * 10 ^ k : ℕ)).natAbs ≤ 10 ^ k + 2 ^ 12
  close : ((r : ℤ) - (q * 10 ^ k : ℕ)).natAbs ≤ 2 ^ 12
  nearest (hv : v ≤ 2 ^ 52) : 2 * ((v : ℤ) - (q * 10 ^ k : ℕ)).natAbs ≤ 10 ^ k
  closest (hv : v ≤ 2 ^ 52) : ((r : ℤ) - (q * 10 ^ k : ℕ)).natAbs ≤ 1
  exact (hv : v ≤ 2 ^ 52) (hk : k ∉ [5, 9, 11, 15]) : r = q * 10 ^ k
  even (hv : v ≤ 2 ^ 52) (hk : k ∉ [5, 9, 11, 15])
    (htie : 2 * ((v : ℤ) - (q * 10 ^ k : ℕ)).natAbs = 10 ^ k) : Even q

/-- Of the multiples of a power with more than 15 zeros zero is the nearest one. -/
theorem multiple_cases {k v q : ℕ} (hv : v ≤ 2 ^ 52)
    (hnearest : 2 * ((v : ℤ) - (q * 10 ^ k : ℕ)).natAbs ≤ 10 ^ k) :
    (q = 0 ∨ k ≤ 15) ∧ q * 10 ^ k ≤ 2 ^ 52 + 5 * 10 ^ 14 := by
  rcases Nat.eq_zero_or_pos q with rfl | hq
  · rw [Nat.zero_mul]
    exact ⟨.inl rfl, Nat.zero_le _⟩
  · have hle : 10 ^ k ≤ q * 10 ^ k := Nat.le_mul_of_pos_left _ hq
    have hk : k ≤ 15 := by
      by_contra hlong
      have : 10 ^ 16 ≤ 10 ^ k := Nat.pow_le_pow_right (by decide) (Nat.lt_of_not_le hlong)
      omega
    have : 10 ^ k ≤ 10 ^ 15 := Nat.pow_le_pow_right (by decide) hk
    exact ⟨.inr hk, by omega⟩

theorem not_mem_farReciprocals {k : ℕ} (hk : k ≤ 15) (h : k ∉ [5, 9, 11, 15]) :
    k ∉ Float64.farReciprocals := by
  simp only [Float64.farReciprocals, List.mem_cons, List.not_mem_nil, or_false] at h ⊢
  omega

theorem floor_natAbs_le {w : ℚ} {Y b : ℕ} (hlow : (Y : ℚ) ≤ w + b) (hhigh : w < Y + b + 1)
    (hw : 0 ≤ w) : ((⌊w⌋₊ : ℤ) - Y).natAbs ≤ b := by
  have hfloor := Nat.floor_le hw
  have hfloor' := Nat.lt_floor_add_one w
  have hle : ⌊w⌋₊ < Y + b + 1 := by
    exact_mod_cast lt_of_le_of_lt hfloor hhigh
  have hge : Y < ⌊w⌋₊ + b + 1 := by
    have : (Y : ℚ) < ⌊w⌋₊ + b + 1 := by linarith
    exact_mod_cast this
  omega

section

variable {v q k : ℕ} {y w δ : ℚ}

theorem Steps.found (h : Steps v ((1 + δ) / 10 ^ k) y q w) (hv : v ≤ 2 ^ 63 + 512) (hk0 : 0 < k)
    (hk : k ≤ 19) (hδ : |δ| ≤ 3 / 2 ^ 55)
    (htight : k ∉ Float64.farReciprocals → -(9 / 10) / 2 ^ 54 ≤ δ ∧ δ ≤ 1 / 2 ^ 54) :
    Found k v q ⌊w⌋₊ ∧ w < 2 ^ 1024 := by
  obtain ⟨hlow, hhigh⟩ := h.back_close hδ
  have hnear : 2 * ((v : ℤ) - (q * 10 ^ k : ℕ)).natAbs ≤ 10 ^ k + 2 ^ 12 := by
    have hnear := h.near_natAbs hδ hk
    have hv : (v : ℚ) ≤ 2 ^ 63 + 512 := by exact_mod_cast hv
    have hle : (2 * ((v : ℤ) - (q * 10 ^ k : ℕ)).natAbs : ℚ) ≤ (10 ^ k + 2 ^ 12 : ℕ) := by
      push_cast at hnear ⊢
      linarith
    exact_mod_cast hle
  have hY : q * 10 ^ k ≤ 2 ^ 64 := by
    have : 10 ^ k ≤ 10 ^ 19 := Nat.pow_le_pow_right (by decide) hk
    omega
  have hw : 0 ≤ w := le_trans (mul_nonneg (Nat.cast_nonneg _) (by norm_num)) hlow
  have hY' : ((q * 10 ^ k : ℕ) : ℚ) ≤ 2 ^ 64 := by exact_mod_cast hY
  have hsmall (hv : v ≤ 2 ^ 52) := multiple_cases hv (h.nearest hδ hk0 hk hv)
  have hexact (hv : v ≤ 2 ^ 52) (hk' : k ∉ [5, 9, 11, 15]) : w = (q * 10 ^ k : ℕ) := by
    obtain ⟨rfl | hk, hY⟩ := hsmall hv
    · rw [Nat.zero_mul, Nat.cast_zero, zero_mul] at hlow hhigh
      rw [Nat.zero_mul, Nat.cast_zero]
      exact le_antisymm hhigh hlow
    · obtain ⟨hδ1, hδ2⟩ := htight (not_mem_farReciprocals hk hk')
      exact h.back_exact hδ1 hδ2 (by omega)
  refine ⟨⟨hnear, ?_, h.nearest hδ hk0 hk, fun hv => ?_, fun hv hk' => ?_, fun hv hk' htie => ?_⟩,
    lt_of_le_two_pow (by linarith)⟩
  · exact floor_natAbs_le (by push_cast at hY' hlow ⊢; linarith)
      (by push_cast at hY' hhigh ⊢; linarith) hw
  · have hY' : ((q * 10 ^ k : ℕ) : ℚ) ≤ 2 ^ 52 + 5 * 10 ^ 14 := by exact_mod_cast (hsmall hv).2
    exact floor_natAbs_le (by push_cast at hY' hlow ⊢; linarith)
      (by push_cast at hY' hhigh ⊢; linarith) hw
  · rw [hexact hv hk', Nat.floor_natCast]
  · obtain ⟨rfl | hk, -⟩ := hsmall hv
    · exact Even.zero
    · obtain ⟨hδ1, hδ2⟩ := htight (not_mem_farReciprocals hk hk')
      exact h.even_of_tie hδ1 hδ2 hk0 hv htie

theorem Steps.found_tiny {c : ℚ} (h : Steps v c y q w) (hv : v ≤ 2 ^ 63 + 512) (hk : 20 ≤ k)
    (hc0 : 0 ≤ c) (hc : c ≤ 2 ^ (-66 : ℤ)) : Found k v q ⌊w⌋₊ ∧ w < 2 ^ 1024 := by
  have hv' : (v : ℚ) ≤ 2 ^ 64 := by exact_mod_cast hv.trans (by decide)
  have hproduct : v * c ≤ (1 : ℕ) * 2 ^ (-2 : ℤ) :=
    calc v * c ≤ 2 ^ 64 * 2 ^ (-66 : ℤ) := mul_le_mul hv' hc hc0 (by norm_num)
      _ = (1 : ℕ) * 2 ^ (-2 : ℤ) := by norm_num
  have hy := h.scaled.le_of_le (by decide) (by decide) hproduct
  have hq : (q : ℚ) < 1 := by
    have hclose := (abs_le.mp h.close).2
    norm_num at hy
    linarith
  obtain rfl : q = 0 := Nat.lt_one_iff.mp (by exact_mod_cast hq)
  have hback := h.back
  rw [Nat.cast_zero, zero_div] at hback
  have hten : 10 ^ 20 ≤ 10 ^ k := Nat.pow_le_pow_right (by decide) hk
  rw [hback.eq_zero, Nat.floor_zero]
  exact ⟨⟨by omega, by omega, by omega, by omega, by simp, by simp⟩, lt_of_le_two_pow (by norm_num)⟩

end

theorem exists_found {n : Int} {k : ℕ} (hn : FitsInt64 n) (hk0 : 0 < k) (hk : k ≤ 308) :
    ∃ (s : Sign) (v q r : ℕ), nearest n = s.apply v ∧ Found k v q r ∧
      toInteger (roundTo (Float.ofInt n) (-k)) = exact (s.apply r) := by
  rcases Nat.lt_or_ge 19 k with hlong | hshort
  · obtain ⟨c, hc, hpos, hle⟩ := Float64.exists_measures_tiny hlong hk
    obtain ⟨s, v, q, y, w, hnearest, hv, h, hresult⟩ := exists_steps hn hc hpos
      (hle.trans (by norm_num))
    obtain ⟨hfound, hw⟩ := h.found_tiny hv hlong hpos.le hle
    exact ⟨s, v, q, _, hnearest, hfound, hresult hw⟩
  · obtain ⟨δ, hc, hδ, htight⟩ := Float64.exists_measures_reciprocal hk0 hshort
    obtain ⟨hδ1, hδ2⟩ := abs_le.mp hδ
    have hten : (10 : ℚ) ^ 1 ≤ 10 ^ k := pow_le_pow_right₀ (by norm_num) hk0
    have hpos : 0 < (1 + δ) / 10 ^ k := div_pos (by linarith) (by positivity)
    have hle : (1 + δ) / 10 ^ k ≤ 1 := by
      rw [div_le_one (by positivity)]
      linarith
    obtain ⟨s, v, q, y, w, hnearest, hv, h, hresult⟩ := exists_steps hn hc hpos hle
    obtain ⟨hfound, hw⟩ := h.found hv hk0 hshort hδ htight
    exact ⟨s, v, q, _, hnearest, hfound, hresult hw⟩

theorem Found.short {k v q r : ℕ} (h : Found k v q r) (hv : v ≤ 2 ^ 52) : r ≤ 2 ^ 53 := by
  have hclosest := h.closest hv
  have hY := (multiple_cases hv (h.nearest hv)).2
  omega

theorem natAbs_apply_sub (s : Sign) (a q k : ℕ) :
    (s.apply a - s.apply q * 10 ^ k).natAbs = ((a : ℤ) - (q * 10 ^ k : ℕ)).natAbs := by
  cases s with
  | positive => simp [Sign.apply]
  | negative =>
      have hneg : -(a : ℤ) - -(q : ℤ) * 10 ^ k = -((a : ℤ) - (q * 10 ^ k : ℕ)) := by
        push_cast
        ring
      rw [Sign.apply, Sign.apply, hneg, Int.natAbs_neg]

theorem call_round (n d : Int) :
    call "round" [.int n, .int d] =
      if 0 ≤ d then .ok (.int n)
      else if -2147483648 ≤ d then toInteger (roundTo (Float.ofInt n) d)
      else .error .overflow := rfl

/-- From `10 ^ 309` on the scale is zero, and zero divided by zero is not a number. -/
theorem toInteger_roundTo_nan {n : Int} {k : ℕ} (hn : FitsInt64 n) (hk : 309 ≤ k) :
    toInteger (roundTo (Float.ofInt n) (-k)) = .error (.type (.notFinite Float64.nan)) := by
  obtain ⟨s, v, hv, -⟩ := (denotes_ofInt hn).exists_measures
  have hscale := Float64.unpack_powerOfTen_neg hk
  have hc : Measures (powerOfTen (-k)).toModel.unpack .positive 0 := hscale ▸ .zero .positive
  obtain ⟨z, hz, hproduct⟩ := reaches_mul hv hc
  rw [mul_zero] at hz
  rw [hz.eq_zero] at hproduct
  obtain ⟨q, hq, hclose, -⟩ :=
    measures_roundEven (hproduct.measures (lt_of_le_two_pow (by norm_num)))
  obtain rfl : q = 0 := Nat.le_zero.mp (le_of_close hclose (Nat.cast_nonneg 0))
  rw [Nat.cast_zero] at hq
  have hnan : roundTo (Float.ofInt n) (-k) = Float64.nan := by
    have hzero : (0.0 : Float).toModel.unpack = .zero .positive := by with_unfolding_all rfl
    show Float.ofModel (.pack (div .binary64
        (Float64.roundEven (Float.ofInt n * powerOfTen (-k))).toModel.unpack
        (powerOfTen (-k)).toModel.unpack)) =
      Float.ofModel (.pack (div .binary64 (0.0 : Float).toModel.unpack (0.0 : Float).toModel.unpack))
    rw [hq.eq_zero, hscale, hzero]
    rfl
  have hvalue : Binary.ofFloat? Float64.nan = none := by with_unfolding_all rfl
  rw [hnan, toInteger, hvalue]

/-- Up to 52 binary digits an integer is rounded to the nearest multiple of `10 ^ k`, of two to the
even one. If the reciprocal of `10 ^ k` is too far off, this may be the odd one, and the result one
more or less than the multiple. With more digits both are off by a few thousand at most. Without
tens the integer is not changed, and with more of them than a float can count there is no result. -/
theorem round_tens {n : Int} (hn : FitsInt64 n) :
    (∀ d : Int, 0 ≤ d → call "round" [.int n, .int d] = .ok (.int n)) ∧
    (∀ d : Int, d < -2147483648 → call "round" [.int n, .int d] = .error .overflow) ∧
    (∀ d : Int, -2147483648 ≤ d → d ≤ -309 →
      call "round" [.int n, .int d] = .error (.type (.notFinite Float64.nan))) ∧
    ∀ k : ℕ, 1 ≤ k → k ≤ 308 → ∃ q r : Int,
      call "round" [.int n, .int (-k)] = exact r ∧
      (r - q * 10 ^ k).natAbs ≤ 2 ^ 12 ∧ 2 * (n - q * 10 ^ k).natAbs ≤ 10 ^ k + 2 ^ 13 ∧
      (n.natAbs ≤ 2 ^ 52 → call "round" [.int n, .int (-k)] = .ok (.int r) ∧
        2 * (n - q * 10 ^ k).natAbs ≤ 10 ^ k ∧ (r - q * 10 ^ k).natAbs ≤ 1 ∧
        (k ∉ [5, 9, 11, 15] →
          r = q * 10 ^ k ∧ (2 * (n - q * 10 ^ k).natAbs = 10 ^ k → Even q))) := by
  refine ⟨fun d hd => ?_, fun d hd => ?_, fun d hd hd' => ?_, fun k hk0 hk => ?_⟩
  · rw [call_round, if_pos hd]
  · rw [call_round, if_neg (by omega), if_neg (by omega)]
  · obtain ⟨k, rfl⟩ : ∃ k : ℕ, d = -k := ⟨d.natAbs, by omega⟩
    rw [call_round, if_neg (by omega), if_pos hd, toInteger_roundTo_nan hn (by omega)]
  · obtain ⟨s, v, q, r, hnearest, hfound, hresult⟩ := exists_found hn hk0 hk
    have hoff := natAbs_apply_sub s r q k
    have hdistance := natAbs_apply_sub s v q k
    rw [← hnearest] at hdistance
    have hcall : call "round" [.int n, .int (-k)] = exact (s.apply r) := by
      rw [call_round, if_neg (by omega), if_pos (by omega), hresult]
    refine ⟨s.apply q, s.apply r, hcall, ?_, ?_, fun hshort => ?_⟩
    · rw [hoff]
      exact hfound.close
    · have hnear := hfound.near
      have := nearest_near hn
      omega
    · have hexact : nearest n = n := nearest_of_le (hshort.trans (by decide))
      rw [hexact] at hnearest hdistance
      have hv : v ≤ 2 ^ 52 := by rwa [hnearest, natAbs_apply] at hshort
      refine ⟨?_, ?_, ?_, fun hk' => ⟨?_, fun htie => ?_⟩⟩
      · have hfits : FitsInt64 (s.apply r) := by
          have hlimit := hfound.short hv
          unfold FitsInt64 int64Min int64Max
          cases s <;> simp only [Sign.apply] <;> omega
        rw [hcall, exact, if_pos hfits]
      · rw [hdistance]
        exact hfound.nearest hv
      · rw [hoff]
        exact hfound.closest hv
      · rw [hfound.exact hv hk']
        cases s <;> simp [Sign.apply]
      · rw [hdistance] at htie
        have heven := (Int.even_coe_nat q).mpr (hfound.even hv hk' htie)
        cases s with
        | positive => exact heven
        | negative => exact heven.neg

theorem round_tens_ties :
    call "round" [.int 25, .int (-1)] = .ok (.int 20) ∧
      call "round" [.int (-350), .int (-2)] = .ok (.int (-400)) := by
  obtain ⟨-, -, -, htens⟩ := @round_tens 25 (by decide)
  obtain ⟨-, -, -, hhundreds⟩ := @round_tens (-350) (by decide)
  obtain ⟨q, r, -, -, -, hshort⟩ := htens 1 (by decide) (by decide)
  obtain ⟨q', r', -, -, -, hshort'⟩ := hhundreds 2 (by decide) (by decide)
  obtain ⟨hcall, hnear, -, hexact⟩ := hshort (by decide)
  obtain ⟨hcall', hnear', -, hexact'⟩ := hshort' (by decide)
  obtain ⟨rfl, heven⟩ := hexact (by decide)
  obtain ⟨rfl, heven'⟩ := hexact' (by decide)
  have hq : q = 2 ∨ q = 3 := by omega
  have hq' : q' = -4 ∨ q' = -3 := by omega
  constructor
  · rcases hq with rfl | rfl
    · exact hcall
    · exact absurd (heven rfl) (by decide)
  · rcases hq' with rfl | rfl
    · exact hcall'
    · exact absurd (heven' rfl) (by decide)

/-- Scaled back, a hundred thousand is a bit less than that, and what is behind the point is cut off.
Other integers are rounded to the odd one of two nearest multiples, or past the middle between them,
or not at all, though zero is the nearest multiple. -/
theorem not_round_tens :
    (¬ ∀ n d q : Int, FitsInt64 n → -2147483648 ≤ d → d < 0 →
      2 * (n - q * 10 ^ d.natAbs).natAbs < 10 ^ d.natAbs → FitsInt64 (q * 10 ^ d.natAbs) →
      call "round" [.int n, .int d] = .ok (.int (q * 10 ^ d.natAbs))) ∧
    evaluate "round(100000, -5)" = .ok (.int 99999) ∧
    evaluate "round(750000000000, -11)" = .ok (.int 700000000000) ∧
    evaluate "round(6755488059389434, -1)" = .ok (.int 6755488059389440) ∧
    evaluate "round(7, -309)" = .error (.type (.notFinite Float64.nan)) := by
  refine ⟨fun h => ?_, by decide +kernel, by decide +kernel, by decide +kernel, by decide +kernel⟩
  have hround := h 100000 (-5) 1 (by decide) (by decide) (by decide) (by decide) (by decide)
  have hcut : call "round" [.int 100000, .int (-5)] = .ok (.int 99999) := by decide +kernel
  rw [hcut] at hround
  cases hround

end ChatAgent.Calculator
