import ChatAgent.Proofs.FloatOfDecimal
import ChatAgent.Proofs.RoundingInterval

/-!
# The fewest digits that read back

A grid is tried by its two neighbours of the float, which is enough (`Interval.exists_neighbour`),
and the grid of the seventeenth digit is fine enough to have one (`exists_holds`). So the digits are
read as the float again (`holds_digits`, `ofScientific_of_holds`), and no decimal with fewer is
rounded to it (`length_digits_le`).
-/

namespace ChatAgent

namespace Shortest

variable {i : Interval} {b : Binary} {tie : Tie} {power : ℤ} {n : ℕ}

namespace Interval

/-! ## The neighbours on a grid -/

/-- A neighbour that is found is in the interval, and if none is found then neither is. -/
theorem neighbour?_spec (i : Interval) (tie : Tie) (power : ℤ) {below : ℕ}
    (h : i.value * quarterUnit power i.quarter / gridUnit power i.quarter = below) :
    (∃ n, i.neighbour? tie power = some n ∧ (n = below ∨ n = below + 1) ∧ i.contains power n) ∨
      i.neighbour? tie power = none ∧
        ¬ i.contains power below ∧ ¬ i.contains power (below + 1) := by
  unfold neighbour?
  dsimp only
  rw [h]
  cases hlow : i.contains power below <;> cases hhigh : i.contains power (below + 1)
  · exact .inr ⟨rfl, by decide, by decide⟩
  · exact .inl ⟨_, rfl, .inr rfl, hhigh⟩
  · exact .inl ⟨_, rfl, .inl rfl, hlow⟩
  · left
    dsimp only
    split
    · exact ⟨_, rfl, .inl rfl, hlow⟩
    · exact ⟨_, rfl, .inr rfl, hhigh⟩
    · cases tie with
      | up => exact ⟨_, rfl, .inr rfl, hhigh⟩
      | even =>
          dsimp only
          split
          · exact ⟨_, rfl, .inl rfl, hlow⟩
          · exact ⟨_, rfl, .inr rfl, hhigh⟩

theorem holds_neighbour (h : i.neighbour? tie power = some n) : i.Holds (n * 10 ^ power) := by
  rcases i.neighbour?_spec tie power rfl with ⟨m, hm, hin⟩ | ⟨hnone, -⟩
  · obtain rfl := Option.some.inj (h.symm.trans hm)
    exact contains_iff.mp hin.2
  · cases h.symm.trans hnone

/-- If a grid has any point in the interval, it has one next to the float. -/
theorem exists_neighbour (tie : Tie) (hvalue : i.Holds (i.value * 2 ^ i.quarter))
    (h : i.Holds (n * 10 ^ power)) : ∃ k, i.neighbour? tie power = some k := by
  have hten : (0 : ℚ) < 10 ^ power := by positivity
  obtain ⟨below, hfloor⟩ : ∃ below, ⌊(i.value * 2 ^ i.quarter / 10 ^ power : ℚ)⌋₊ = below :=
    ⟨_, rfl⟩
  have hquotient : i.value * quarterUnit power i.quarter / gridUnit power i.quarter = below := by
    rw [← hfloor, ← div_gridUnit, Nat.floor_div_eq_div]
  obtain ⟨hbelow, habove⟩ := (Nat.floor_eq_iff (by positivity)).mp hfloor
  rw [le_div_iff₀ hten] at hbelow
  rw [div_lt_iff₀ hten] at habove
  rcases i.neighbour?_spec tie power hquotient with ⟨k, hk, -⟩ | ⟨-, hnot, hnot'⟩
  · exact ⟨k, hk⟩
  rw [contains_iff] at hnot hnot'
  rcases Nat.lt_or_ge below n with hlt | hle
  · -- the point is above the float, and so is the upper neighbour
    have hn : ((below + 1 : ℕ) : ℚ) ≤ n := by exact_mod_cast hlt
    refine absurd (hvalue.between h ?_ (mul_le_mul_of_nonneg_right hn hten.le)) hnot'
    push_cast
    exact habove.le
  · have hn : (n : ℚ) ≤ below := by exact_mod_cast hle
    exact absurd (h.between hvalue (mul_le_mul_of_nonneg_right hn hten.le) hbelow) hnot

/-! ## The search -/

/-- The search ends on the first grid that has a neighbour. -/
theorem search_eq {count j k : ℕ} (hj : j < count) (h : i.neighbour? tie (power - j) = some k) :
    ∃ (l m : ℕ), i.search tie count power = ⟨m, power - l⟩ ∧
      i.neighbour? tie (power - l) = some m ∧
      ∀ l' < l, i.neighbour? tie (power - l') = none := by
  induction count generalizing power j with
  | zero => omega
  | succ count ih =>
      rw [search]
      cases hfirst : i.neighbour? tie power with
      | some m =>
          refine ⟨0, m, ?_, ?_, by omega⟩
          · simp
          · simpa using hfirst
      | none =>
          obtain ⟨j, rfl⟩ : ∃ j', j = j' + 1 := by
            refine Nat.exists_eq_succ_of_ne_zero ?_
            rintro rfl
            simp [hfirst] at h
          have hshift (a : ℕ) : power - ((a + 1 : ℕ) : ℤ) = power - 1 - a := by
            push_cast
            ring
          rw [hshift] at h
          obtain ⟨l, m, hsearch, hfound, hnone⟩ := ih (by omega) h
          refine ⟨l + 1, m, ?_, ?_, ?_⟩
          · rw [hshift]
            exact hsearch
          · rw [hshift]
            exact hfound
          · intro l' hl'
            cases l' with
            | zero => simpa using hfirst
            | succ l' =>
                rw [hshift]
                exact hnone l' (by omega)

end Interval

/-! ## The first digit -/

theorem lt_pow_length (n : ℕ) : n < 10 ^ (Nat.toDigits 10 n).length :=
  (Nat.length_toDigits_le_iff (by decide) Nat.length_toDigits_pos).mp le_rfl

theorem pow_length_le (hn : n ≠ 0) : 10 ^ ((Nat.toDigits 10 n).length - 1) ≤ n := by
  have hlength := Nat.length_toDigits_pos (b := 10) (n := n)
  by_contra hlt
  rcases Nat.eq_zero_or_pos ((Nat.toDigits 10 n).length - 1) with hzero | hmore
  · rw [hzero] at hlt
    omega
  · have := (Nat.length_toDigits_le_iff (by decide) hmore).mpr (Nat.lt_of_not_le hlt)
    omega

/-- The magnitude of a number less than one. -/
theorem magnitude_of_whole (hpos : 0 < b.mantissa) (hwhole : b.whole = 0) :
    b.mantissa < 2 ^ b.places ∧ b.magnitude = b.mantissa / 2 ^ b.places := by
  have hneg : b.exponent < 0 := by
    by_contra hnonneg
    rw [Binary.whole, if_neg hnonneg] at hwhole
    have := Nat.mul_pos hpos (Nat.two_pow_pos b.exponent.toNat)
    exact absurd hwhole this.ne'
  have hexponent : b.exponent = -(b.places : ℤ) := by
    unfold Binary.places
    omega
  rw [Binary.whole, if_pos hneg] at hwhole
  refine ⟨Nat.lt_of_div_eq_zero (Nat.two_pow_pos _) hwhole, ?_⟩
  rw [Binary.magnitude, hexponent, zpow_neg, zpow_natCast, div_eq_mul_inv]

theorem leadingExponent_bounds (hpos : 0 < b.mantissa) :
    (10 : ℚ) ^ leadingExponent b ≤ b.magnitude ∧
      b.magnitude < 10 ^ (leadingExponent b + 1) := by
  unfold leadingExponent
  split
  · rename_i hwhole
    generalize hlength : (Nat.toDigits 10 b.whole).length = k
    have hk : 0 < k := hlength ▸ Nat.length_toDigits_pos
    have hrest := b.rest_div_lt_one
    have hnonneg : (0 : ℚ) ≤ b.rest / 2 ^ b.places := by positivity
    have hlow : ((10 ^ (k - 1) : ℕ) : ℚ) ≤ b.whole := by
      exact_mod_cast hlength ▸ pow_length_le hwhole
    have hhigh : ((b.whole + 1 : ℕ) : ℚ) ≤ (10 ^ k : ℕ) := by
      exact_mod_cast hlength ▸ lt_pow_length b.whole
    have hfirst : ((k : ℤ) - 1) = (k - 1 : ℕ) := by omega
    push_cast at hlow hhigh
    rw [b.magnitude_eq, sub_add_cancel, hfirst, zpow_natCast, zpow_natCast]
    constructor <;> linarith
  · rename_i hwhole
    obtain ⟨hlt, hvalue⟩ := magnitude_of_whole hpos (not_not.mp hwhole)
    have hunit : (0 : ℚ) < 2 ^ b.places := by positivity
    -- how often the number fits into one, less one if it does so exactly
    obtain ⟨q, hq⟩ : ∃ q, (2 ^ b.places - 1) / b.mantissa = q := ⟨_, rfl⟩
    have hinverse : (Nat.pow 2 b.places + b.mantissa - 1) / b.mantissa - 1 = q := by
      have hsum : Nat.pow 2 b.places + b.mantissa - 1 = 2 ^ b.places - 1 + b.mantissa := by
        rw [Nat.pow_eq]
        omega
      rw [hsum, Nat.add_div_right _ hpos, hq, Nat.add_sub_cancel]
    have hq0 : q ≠ 0 := by
      rintro rfl
      have := Nat.lt_of_div_eq_zero hpos hq
      omega
    have hmul : b.mantissa * q ≤ 2 ^ b.places - 1 := hq ▸ Nat.mul_div_le _ _
    have hmul' : 2 ^ b.places - 1 < b.mantissa * (q + 1) := hq ▸ Nat.lt_mul_div_succ _ hpos
    dsimp only
    rw [hinverse, Int.negOfNat_eq, hvalue]
    generalize hlength : (Nat.toDigits 10 q).length = k
    have hk : 0 < k := hlength ▸ Nat.length_toDigits_pos
    have hhigh : q + 1 ≤ 10 ^ k := hlength ▸ lt_pow_length q
    have hlow : 10 ^ (k - 1) ≤ q := hlength ▸ pow_length_le hq0
    have hfirst : -(Int.ofNat k) + 1 = -((k - 1 : ℕ) : ℤ) := by
      show -(k : ℤ) + 1 = _
      omega
    rw [hfirst]
    show (10 : ℚ) ^ (-(k : ℤ)) ≤ _ ∧ _
    rw [zpow_neg, zpow_neg, zpow_natCast, zpow_natCast, ← one_div, ← one_div,
      div_le_div_iff₀ (by positivity) hunit, div_lt_div_iff₀ hunit (by positivity)]
    have hbelow : 2 ^ b.places ≤ b.mantissa * 10 ^ k :=
      le_trans (by omega) (Nat.mul_le_mul_left _ hhigh)
    have habove : b.mantissa * 10 ^ (k - 1) < 2 ^ b.places :=
      lt_of_le_of_lt ((Nat.mul_le_mul_left _ hlow).trans hmul) (by omega)
    have hbelow : (2 : ℚ) ^ b.places ≤ b.mantissa * 10 ^ k := by exact_mod_cast hbelow
    have habove : (b.mantissa : ℚ) * 10 ^ (k - 1) < 2 ^ b.places := by exact_mod_cast habove
    constructor <;> linarith

/-- Seventeen digits make a grid that is finer than the interval is long. -/
theorem exists_holds (hb : Canonical b.mantissa b.exponent) (hpos : 0 < b.mantissa) :
    ∃ n : ℕ, (Interval.ofBinary b).Holds (n * 10 ^ (leadingExponent b - 16)) := by
  obtain ⟨step, hstep⟩ : ∃ s : ℚ, 10 ^ (leadingExponent b - 16) = s := ⟨_, rfl⟩
  have hstep0 : 0 < step := by
    rw [← hstep]
    positivity
  have hunit : (0 : ℚ) < 2 ^ b.exponent := by positivity
  have hmantissa : (1 : ℚ) ≤ b.mantissa := by exact_mod_cast hpos
  have hbelow := below_bounds b
  have hfine : step * 10 ^ 16 ≤ b.mantissa * 2 ^ b.exponent := by
    have hfirst := (leadingExponent_bounds hpos).1
    rw [Binary.magnitude] at hfirst
    refine le_trans (le_of_eq ?_) hfirst
    rw [← hstep, zpow_sub₀ (by norm_num)]
    norm_num
  have hlong : step < (1 / 2 + below b) * 2 ^ b.exponent := by
    unfold below
    split
    · rename_i hpower
      rw [hpower.1] at hfine
      push_cast at hfine
      linarith
    · have hshort : (b.mantissa : ℚ) < 2 ^ 53 := by exact_mod_cast hb.short
      have := mul_lt_mul_of_pos_right hshort hunit
      linarith
  -- the first point of the grid above the lower bound
  obtain ⟨k, hk⟩ : ∃ k, ⌊(b.mantissa - below b) * 2 ^ b.exponent / step⌋₊ = k := ⟨_, rfl⟩
  have hlow0 : 0 ≤ (b.mantissa - below b) * 2 ^ b.exponent :=
    mul_nonneg (by linarith) hunit.le
  obtain ⟨hle, hlt⟩ := (Nat.floor_eq_iff (div_nonneg hlow0 hstep0.le)).mp hk
  rw [le_div_iff₀ hstep0] at hle
  rw [div_lt_iff₀ hstep0] at hlt
  have hinside : b.mantissa - below b < ((k + 1 : ℕ) : ℚ) * step / 2 ^ b.exponent ∧
      ((k + 1 : ℕ) : ℚ) * step / 2 ^ b.exponent < b.mantissa + 1 / 2 := by
    rw [lt_div_iff₀ hunit, div_lt_iff₀ hunit]
    push_cast
    constructor <;> linarith
  refine ⟨k + 1, ?_⟩
  rw [hstep, holds_ofBinary hpos]
  exact ⟨⟨hinside.1.le, hinside.2.le⟩, fun _ => hinside⟩

end Shortest

/-! ## Zeros at the end -/

namespace Decimal

/-- The rational number. -/
def value (d : Decimal) : ℚ := d.significand * 10 ^ d.power

theorem value_trimmed (d : Decimal) : d.trimmed.value = d.value := by
  fun_induction trimmed d with
  | case1 d h ih =>
      rw [ih]
      have hsplit : (d.significand : ℚ) = (d.significand / 10 : ℕ) * 10 := by
        exact_mod_cast (Nat.div_mul_cancel (Nat.dvd_of_mod_eq_zero h.2)).symm
      unfold value
      rw [zpow_add_one₀ (by norm_num), hsplit]
      ring
  | case2 d h => rfl

theorem significand_trimmed_le (d : Decimal) : d.trimmed.significand ≤ d.significand := by
  fun_induction trimmed d with
  | case1 d h ih => exact ih.trans (Nat.div_le_self _ _)
  | case2 d h => exact le_rfl

theorem significand_trimmed (d : Decimal) (h : d.significand ≠ 0) :
    d.trimmed.significand % 10 ≠ 0 := by
  fun_induction trimmed d with
  | case1 d hzero ih =>
      refine ih ?_
      dsimp only
      omega
  | case2 d hzero => exact fun hmod => hzero ⟨h, hmod⟩

end Decimal

namespace Shortest

variable {b : Binary} {power : ℤ} {n : ℕ}

/-! ## Reading back -/

section Digits

variable (hb : Canonical b.mantissa b.exponent) (hpos : 0 < b.mantissa) (tie : Tie)

include hb

theorem ofScientific_of_holds (he : b.exponent ≤ 971)
    (h : (Interval.ofBinary b).Holds (n * 10 ^ power)) :
    Float.ofScientific n (power < 0) power.natAbs =
      .ofModel (.pack (.finite .positive b.mantissa b.exponent hpos)) := by
  have hlarge : (n : ℚ) * 10 ^ power < 2 ^ 1024 := by
    have hhigh := ((holds_ofBinary hpos).mp h).1.2
    have hshort : (b.mantissa : ℚ) + 1 ≤ 2 ^ 53 := by exact_mod_cast hb.short
    have hunit : (0 : ℚ) < 2 ^ b.exponent := by positivity
    rw [div_le_iff₀ hunit] at hhigh
    calc (n : ℚ) * 10 ^ power ≤ (b.mantissa + 1 / 2) * 2 ^ b.exponent := hhigh
      _ < 2 ^ 53 * 2 ^ b.exponent := mul_lt_mul_of_pos_right (by linarith) hunit
      _ ≤ 2 ^ 53 * 2 ^ (971 : ℤ) :=
          mul_le_mul_of_nonneg_left (zpow_le_zpow_right₀ one_le_two he) (by norm_num)
      _ = 2 ^ 1024 := by
          rw [← zpow_natCast, ← zpow_natCast, ← zpow_add₀ two_ne_zero]
          congr 1
  obtain ⟨u, z, hread, hz, hround⟩ := nearEven_ofScientific hlarge
  obtain rfl := eq_magnitude_of_holds hb hpos hz h
  rw [hread, hround.eq_finite hb hpos]

include hpos

theorem exists_search : ∃ l k : ℕ,
    digits tie b = (Decimal.mk k (leadingExponent b - l)).trimmed ∧
    (Interval.ofBinary b).neighbour? tie (leadingExponent b - l) = some k ∧
    ∀ j < l, (Interval.ofBinary b).neighbour? tie (leadingExponent b - j) = none := by
  have hvalue := holds_magnitude hpos
  rw [← value_ofBinary] at hvalue
  obtain ⟨n, hn⟩ := exists_holds hb hpos
  obtain ⟨k, hk⟩ := Interval.exists_neighbour tie hvalue hn
  obtain ⟨l, m, hsearch, hfound, hnone⟩ := Interval.search_eq (show 16 < 17 by decide) hk
  refine ⟨l, m, ?_, hfound, hnone⟩
  rw [digits, hsearch]

theorem holds_digits : (Interval.ofBinary b).Holds (digits tie b).value := by
  obtain ⟨l, k, hdigits, hfound, -⟩ := exists_search hb hpos tie
  rw [hdigits, Decimal.value_trimmed]
  exact Interval.holds_neighbour hfound

omit hb in
theorem ne_zero_of_holds (h : (Interval.ofBinary b).Holds (n * 10 ^ power)) : n ≠ 0 := by
  rintro rfl
  have hlow := ((holds_ofBinary hpos).mp h).1.1
  have hbelow := (below_bounds b).2
  have hmantissa : (1 : ℚ) ≤ b.mantissa := by exact_mod_cast hpos
  rw [Nat.cast_zero, zero_mul, zero_div] at hlow
  linarith

/-- The last digit is not a zero. -/
theorem significand_digits : (digits tie b).significand % 10 ≠ 0 := by
  obtain ⟨l, k, hdigits, hfound, -⟩ := exists_search hb hpos tie
  rw [hdigits]
  exact Decimal.significand_trimmed _ (ne_zero_of_holds hpos (Interval.holds_neighbour hfound))

/-! ## No fewer digits -/

omit hb in
/-- On the grid of the digit `l + 1` the neighbours have no more digits than that, or are a power
of ten. -/
theorem neighbour_le {tie : Tie} {l k : ℕ}
    (h : (Interval.ofBinary b).neighbour? tie (leadingExponent b - l) = some k) :
    k ≤ 10 ^ (l + 1) := by
  have hgrid : (0 : ℚ) < 10 ^ (leadingExponent b - l) := by positivity
  obtain ⟨below, hbelow⟩ : ∃ n, (Interval.ofBinary b).value *
      quarterUnit (leadingExponent b - l) (Interval.ofBinary b).quarter /
        gridUnit (leadingExponent b - l) (Interval.ofBinary b).quarter = n := ⟨_, rfl⟩
  have hfloor : below = ⌊b.magnitude / 10 ^ (leadingExponent b - l)⌋₊ := by
    rw [← hbelow, ← value_ofBinary, ← Interval.div_gridUnit, Nat.floor_div_eq_div]
  have hlt : below < 10 ^ (l + 1) := by
    rw [hfloor]
    refine (Nat.floor_lt' (by positivity)).mpr ?_
    rw [div_lt_iff₀ hgrid]
    refine lt_of_lt_of_eq (leadingExponent_bounds hpos).2 ?_
    push_cast
    rw [← zpow_natCast, ← zpow_add₀ (by norm_num)]
    congr 1
    push_cast
    ring
  rcases (Interval.ofBinary b).neighbour?_spec tie _ hbelow with ⟨m, hm, hnear, -⟩ | ⟨hnone, -⟩
  · obtain rfl := Option.some.inj (h.symm.trans hm)
    omega
  · cases h.symm.trans hnone

omit hb in
/-- What has `s` digits and lies in the interval makes the grid of the digit `s` have a point
there: itself, or the power of ten at which the float's own digits begin. -/
theorem exists_holds_of_short {s : ℕ} (hs : 0 < s) (hn : n < 10 ^ s)
    (h : (Interval.ofBinary b).Holds (n * 10 ^ power)) :
    ∃ m : ℕ, (Interval.ofBinary b).Holds (m * 10 ^ (leadingExponent b - (s - 1 : ℕ))) := by
  rcases le_or_gt (leadingExponent b - (s - 1 : ℕ)) power with hle | hgt
  · obtain ⟨j, rfl⟩ := Int.le.dest hle
    refine ⟨n * 10 ^ j, ?_⟩
    rw [zpow_add₀ (by norm_num), zpow_natCast] at h
    push_cast
    rwa [mul_assoc, mul_comm (10 ^ j)]
  · refine ⟨10 ^ (s - 1), h.between (holds_magnitude hpos) ?_ ?_⟩
    · have hn : (n : ℚ) ≤ 10 ^ s := by exact_mod_cast hn.le
      calc (n : ℚ) * 10 ^ power ≤ 10 ^ s * 10 ^ power :=
            mul_le_mul_of_nonneg_right hn (by positivity)
        _ = 10 ^ (s + power : ℤ) := by rw [zpow_add₀ (by norm_num), zpow_natCast]
        _ ≤ 10 ^ ((s - 1 : ℕ) + (leadingExponent b - (s - 1 : ℕ)) : ℤ) :=
            zpow_le_zpow_right₀ (by norm_num) (by omega)
        _ = (10 ^ (s - 1) : ℕ) * 10 ^ (leadingExponent b - (s - 1 : ℕ)) := by
            rw [zpow_add₀ (by norm_num), zpow_natCast]
            push_cast
            rfl
    · refine le_trans (le_of_eq ?_) (leadingExponent_bounds hpos).1
      push_cast
      rw [← zpow_natCast, ← zpow_add₀ (by norm_num)]
      congr 1
      ring

/-- No decimal with fewer digits is rounded to the float. -/
theorem length_digits_le (h : NearEven (n * 10 ^ power) b.magnitude) :
    (digits tie b).digits.length ≤ (Nat.toDigits 10 n).length := by
  have hlength := Nat.length_toDigits_pos (b := 10) (n := n)
  have hholds := holds_of_eq_magnitude hb hpos h rfl
  obtain ⟨l, k, hdigits, hfound, hnone⟩ := exists_search hb hpos tie
  have hl : l + 1 ≤ (Nat.toDigits 10 n).length := by
    by_contra hshort
    obtain ⟨m, hm⟩ := exists_holds_of_short hpos hlength (lt_pow_length n) hholds
    have hvalue := holds_magnitude hpos
    rw [← value_ofBinary] at hvalue
    obtain ⟨k', hk'⟩ := Interval.exists_neighbour tie hvalue hm
    cases (hnone _ (by omega)).symm.trans hk'
  have hlast := significand_digits hb hpos tie
  rw [hdigits] at hlast
  have hle := (Decimal.significand_trimmed_le ⟨k, leadingExponent b - l⟩).trans
    (neighbour_le hpos hfound)
  have hpower : (Decimal.mk k (leadingExponent b - l)).trimmed.significand ≠ 10 ^ (l + 1) := by
    intro heq
    rw [heq, Nat.pow_succ, Nat.mul_mod_left] at hlast
    exact hlast rfl
  rw [hdigits, Decimal.digits]
  exact ((Nat.length_toDigits_le_iff (by decide) (by omega)).mpr
    (lt_of_le_of_ne hle hpower)).trans hl

end Digits

end Shortest

end ChatAgent
