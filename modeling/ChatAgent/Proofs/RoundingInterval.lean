import ChatAgent.Number.Shortest
import ChatAgent.Proofs.FloatArithmetic

/-!
# The interval of a float

The interval of a float holds what is rounded to the float and nothing else (`eq_magnitude_iff`).
Whether a decimal lies in it is found out on whole numbers (`Interval.contains_iff`).
-/

namespace ChatAgent.Shortest

variable {i : Interval} {b : Binary} {power : ℤ} {n : ℕ} {x y z : ℚ}

/-! ## The interval as a set of numbers -/

/-- The number is between the bounds; it is none of them unless they belong to the interval. -/
structure Interval.Holds (i : Interval) (x : ℚ) : Prop where
  low : i.low * 2 ^ i.quarter ≤ x
  high : x ≤ i.high * 2 ^ i.quarter
  inner : i.closed = false → i.low * 2 ^ i.quarter < x ∧ x < i.high * 2 ^ i.quarter

namespace Interval

theorem Holds.between (hx : i.Holds x) (hz : i.Holds z) (hxy : x ≤ y) (hyz : y ≤ z) :
    i.Holds y where
  low := hx.low.trans hxy
  high := hyz.trans hz.high
  inner h := ⟨(hx.inner h).1.trans_le hxy, hyz.trans_lt (hz.inner h).2⟩

theorem holds_of_inside (hlow : i.low * 2 ^ i.quarter < x) (hhigh : x < i.high * 2 ^ i.quarter) :
    i.Holds x :=
  ⟨hlow.le, hhigh.le, fun _ => ⟨hlow, hhigh⟩⟩

theorem gridUnit_pos (power quarter : ℤ) : (0 : ℚ) < gridUnit power quarter := by
  have : 0 < gridUnit power quarter :=
    Nat.mul_pos (Nat.pow_pos (by decide)) (Nat.pow_pos (by decide))
  exact_mod_cast this

/-- Both units are whole numbers, and their ratio is that of the powers they stand for. -/
theorem div_gridUnit (a : ℕ) (power quarter : ℤ) :
    ((a * quarterUnit power quarter : ℕ) : ℚ) / gridUnit power quarter =
      a * 2 ^ quarter / 10 ^ power := by
  have hten : (10 : ℚ) ^ power = 10 ^ power.toNat / 10 ^ (-power).toNat := by
    rw [← zpow_natCast, ← zpow_natCast, ← zpow_sub₀ (by norm_num)]
    congr 1
    omega
  have htwo : (2 : ℚ) ^ quarter = 2 ^ quarter.toNat / 2 ^ (-quarter).toNat := by
    rw [← zpow_natCast, ← zpow_natCast, ← zpow_sub₀ two_ne_zero]
    congr 1
    omega
  rw [hten, htwo, quarterUnit, gridUnit]
  simp only [Nat.pow_eq]
  push_cast
  field_simp

theorem contains_iff : i.contains power n ↔ i.Holds (n * 10 ^ power) := by
  have hgrid := gridUnit_pos power i.quarter
  have hten : (0 : ℚ) < 10 ^ power := by positivity
  have hlow (a : ℕ) : a * quarterUnit power i.quarter ≤ n * gridUnit power i.quarter ↔
      (a : ℚ) * 2 ^ i.quarter ≤ n * 10 ^ power := by
    rw [← div_le_iff₀ hten, ← div_gridUnit, div_le_iff₀ hgrid]
    exact_mod_cast Iff.rfl
  have hhigh (a : ℕ) : n * gridUnit power i.quarter ≤ a * quarterUnit power i.quarter ↔
      (n : ℚ) * 10 ^ power ≤ a * 2 ^ i.quarter := by
    rw [← le_div_iff₀ hten, ← div_gridUnit, le_div_iff₀ hgrid]
    exact_mod_cast Iff.rfl
  have hbelow := not_congr (hhigh i.low)
  have habove := not_congr (hlow i.high)
  rw [not_le, not_le] at hbelow habove
  unfold contains
  cases hclosed : i.closed
  · simp only [Bool.false_eq_true, if_false, Bool.and_eq_true, decide_eq_true_eq, hbelow, habove]
    exact ⟨fun h => holds_of_inside h.1 h.2, fun h => h.inner hclosed⟩
  · simp only [if_true, Bool.and_eq_true, decide_eq_true_eq, hlow, hhigh]
    exact ⟨fun h => ⟨h.1, h.2, fun h' => absurd (hclosed.symm.trans h') (by decide)⟩,
      fun h => ⟨h.low, h.high⟩⟩

end Interval

/-! ## The interval of a float -/

/-- How far the interval reaches below the float, in units of its last place. -/
def below (b : Binary) : ℚ := if b.mantissa = 2 ^ 52 ∧ -1074 < b.exponent then 1 / 4 else 1 / 2

theorem below_bounds (b : Binary) : 1 / 4 ≤ below b ∧ below b ≤ 1 / 2 := by
  unfold below
  split <;> norm_num

theorem low_ofBinary (hpos : 0 < b.mantissa) :
    ((Interval.ofBinary b).low : ℚ) = 4 * (b.mantissa - below b) := by
  unfold Interval.ofBinary below
  dsimp only
  simp only [Nat.pow_eq]
  split
  · rw [Nat.cast_sub (by omega)]
    push_cast
    ring
  · rw [Nat.cast_sub (by omega)]
    push_cast
    ring

theorem zpow_quarter (b : Binary) :
    4 * (2 : ℚ) ^ (Interval.ofBinary b).quarter = 2 ^ b.exponent := by
  unfold Interval.ofBinary
  dsimp only
  rw [zpow_sub₀ two_ne_zero]
  norm_num
  ring

theorem value_ofBinary (b : Binary) :
    ((Interval.ofBinary b).value : ℚ) * 2 ^ (Interval.ofBinary b).quarter = b.magnitude := by
  have hquarter := zpow_quarter b
  have hvalue : ((Interval.ofBinary b).value : ℚ) = 4 * b.mantissa := by
    unfold Interval.ofBinary
    push_cast
    rfl
  rw [hvalue, Binary.magnitude, ← hquarter]
  ring

/-- The interval in units of the last place. -/
theorem holds_ofBinary (hpos : 0 < b.mantissa) :
    (Interval.ofBinary b).Holds x ↔
      (b.mantissa - below b ≤ x / 2 ^ b.exponent ∧ x / 2 ^ b.exponent ≤ b.mantissa + 1 / 2) ∧
      (¬ Even b.mantissa →
        b.mantissa - below b < x / 2 ^ b.exponent ∧ x / 2 ^ b.exponent < b.mantissa + 1 / 2) := by
  have hunit : (0 : ℚ) < 2 ^ b.exponent := by positivity
  have hlow : ((Interval.ofBinary b).low : ℚ) * 2 ^ (Interval.ofBinary b).quarter =
      (b.mantissa - below b) * 2 ^ b.exponent := by
    rw [low_ofBinary hpos, ← zpow_quarter]
    ring
  have hhigh : ((Interval.ofBinary b).high : ℚ) * 2 ^ (Interval.ofBinary b).quarter =
      (b.mantissa + 1 / 2) * 2 ^ b.exponent := by
    have hhigh : ((Interval.ofBinary b).high : ℚ) = 4 * (b.mantissa + 1 / 2) := by
      unfold Interval.ofBinary
      push_cast
      ring
    rw [hhigh, ← zpow_quarter]
    ring
  have hclosed : (Interval.ofBinary b).closed = false ↔ ¬ Even b.mantissa := by
    rw [Nat.even_iff]
    unfold Interval.ofBinary
    simp
  rw [le_div_iff₀ hunit, div_le_iff₀ hunit, lt_div_iff₀ hunit, div_lt_iff₀ hunit, ← hlow, ← hhigh,
    ← hclosed]
  exact ⟨fun h => ⟨⟨h.low, h.high⟩, h.inner⟩, fun h => ⟨h.1.1, h.1.2, h.2⟩⟩

theorem holds_magnitude (hpos : 0 < b.mantissa) : (Interval.ofBinary b).Holds b.magnitude := by
  have hbelow := (below_bounds b).1
  have hdigits : b.magnitude / 2 ^ b.exponent = b.mantissa :=
    mul_div_cancel_right₀ _ (by positivity)
  rw [holds_ofBinary hpos, hdigits]
  exact ⟨⟨by linarith, by linarith⟩, fun _ => ⟨by linarith, by linarith⟩⟩

/-! ## What is rounded to a float -/

section Rounded

variable (hb : Canonical b.mantissa b.exponent) (hpos : 0 < b.mantissa)

include hb hpos

theorem place_le_of_holds {e : ℤ} (hx : (Interval.ofBinary b).Holds x)
    (leading : e = -1074 ∨ 2 ^ 52 * 2 ^ e ≤ x) : e ≤ b.exponent := by
  by_contra hlt
  have hleast := hb.least
  have hfirst := leading.resolve_left (by omega)
  have hunit : (0 : ℚ) < 2 ^ b.exponent := by positivity
  have hnext : (2 : ℚ) ^ (b.exponent + 1) ≤ 2 ^ e := zpow_le_zpow_right₀ one_le_two (by omega)
  rw [zpow_add_one₀ two_ne_zero] at hnext
  have hhigh := (div_le_iff₀ hunit).mp ((holds_ofBinary hpos).mp hx).1.2
  have hshort : (b.mantissa : ℚ) + 1 ≤ 2 ^ 53 := by exact_mod_cast hb.short
  have := mul_le_mul_of_nonneg_right hshort hunit.le
  linarith

omit hb in
/-- Neighbours are not both even, so at a bound of the interval the float is the even one. -/
theorem eq_of_same_place {m : ℕ} (hx : (Interval.ofBinary b).Holds x)
    (close : |m - x / 2 ^ b.exponent| ≤ 1 / 2)
    (tie : |m - x / 2 ^ b.exponent| = 1 / 2 → Even m) : m = b.mantissa := by
  obtain ⟨⟨hlow, hhigh⟩, hinner⟩ := (holds_ofBinary hpos).mp hx
  obtain ⟨hclose, hclose'⟩ := abs_le.mp close
  have hbelow := (below_bounds b).2
  rcases Nat.lt_trichotomy m b.mantissa with hlt | heq | hgt
  · have hlt : (m : ℚ) + 1 ≤ b.mantissa := by exact_mod_cast hlt
    have hhalf : x / 2 ^ b.exponent = m + 1 / 2 := by linarith
    have heven := tie (by rw [hhalf]; norm_num)
    have hnext : (b.mantissa : ℚ) = (m + 1 : ℕ) := by
      push_cast
      linarith
    have hnext : b.mantissa = m + 1 := by exact_mod_cast hnext
    have hodd : ¬ Even b.mantissa := by
      rw [hnext, Nat.even_add_one]
      exact not_not_intro heven
    linarith [(hinner hodd).1]
  · exact heq
  · have hgt : (b.mantissa : ℚ) + 1 ≤ m := by exact_mod_cast hgt
    have hhalf : x / 2 ^ b.exponent = m - 1 / 2 := by linarith
    have heven := tie (by rw [hhalf]; norm_num)
    have hnext : (m : ℚ) = (b.mantissa + 1 : ℕ) := by
      push_cast
      linarith
    have hnext : m = b.mantissa + 1 := by exact_mod_cast hnext
    have hodd : ¬ Even b.mantissa := by rwa [hnext, Nat.even_add_one] at heven
    linarith [(hinner hodd).2]

/-- Only below a power of two the places of a number in the interval count less. -/
theorem power_of_lower_place {e : ℤ} (hx : (Interval.ofBinary b).Holds x) (least : -1074 ≤ e)
    (hlt : e < b.exponent) (short : x < 2 ^ 53 * 2 ^ e) :
    b.mantissa = 2 ^ 52 ∧ b.exponent = e + 1 ∧ 2 ^ 53 - 1 / 2 ≤ x / 2 ^ e := by
  have hlow := ((holds_ofBinary hpos).mp hx).1.1
  have hbelow := (below_bounds b).2
  have hunit : (0 : ℚ) < 2 ^ b.exponent := by positivity
  have hunit' : (0 : ℚ) < 2 ^ e := by positivity
  have hlong : (2 : ℚ) ^ 52 ≤ b.mantissa := by
    exact_mod_cast hb.leading.resolve_left (by omega)
  have hnext : (2 : ℚ) ^ (e + 1) ≤ 2 ^ b.exponent := zpow_le_zpow_right₀ one_le_two (by omega)
  rw [zpow_add_one₀ two_ne_zero] at hnext
  have hmantissa : b.mantissa = 2 ^ 52 := by
    have hx52 : x / 2 ^ b.exponent < 2 ^ 52 := by
      rw [div_lt_iff₀ hunit]
      linarith
    have hlt : (b.mantissa : ℚ) < 2 ^ 52 + 1 := by linarith
    have hlt : b.mantissa < 2 ^ 52 + 1 := by exact_mod_cast hlt
    have hle : 2 ^ 52 ≤ b.mantissa := by exact_mod_cast hlong
    omega
  have hquarter : below b = 1 / 4 := if_pos ⟨hmantissa, by omega⟩
  rw [hquarter, hmantissa, le_div_iff₀ hunit] at hlow
  push_cast at hlow
  have he : b.exponent = e + 1 := by
    by_contra hne
    have hfar : (2 : ℚ) ^ (e + 2) ≤ 2 ^ b.exponent := zpow_le_zpow_right₀ one_le_two (by omega)
    rw [zpow_add₀ two_ne_zero] at hfar
    linarith
  refine ⟨hmantissa, he, ?_⟩
  rw [he, zpow_add_one₀ two_ne_zero] at hlow
  rw [le_div_iff₀ hunit']
  linarith

omit hb hpos in
/-- Less than half a place below a power of two it is rounded up to the power, and so is what is
just half a place below, as the other neighbour is odd. -/
theorem digits_of_lower_place {m : ℕ} (hlow : 2 ^ 53 - 1 / 2 ≤ x) (hhigh : x < 2 ^ 53)
    (close : |m - x| ≤ 1 / 2) (tie : |m - x| = 1 / 2 → Even m) : m = 2 ^ 53 := by
  obtain ⟨hclose, hclose'⟩ := abs_le.mp close
  have hle : (m : ℚ) < 2 ^ 53 + 1 := by linarith
  have hge : (2 : ℚ) ^ 53 ≤ m + 1 := by linarith
  have hle : m < 2 ^ 53 + 1 := by exact_mod_cast hle
  have hge : 2 ^ 53 ≤ m + 1 := by exact_mod_cast hge
  by_contra hne
  obtain rfl : m = 2 ^ 53 - 1 := by omega
  have hodd : ¬ Even (2 ^ 53 - 1) := by decide
  refine hodd (tie ?_)
  rw [abs_eq (by norm_num)]
  right
  push_cast at hclose ⊢
  norm_num at hclose hlow ⊢
  linarith

theorem eq_magnitude_of_holds (h : NearEven x z) (hx : (Interval.ofBinary b).Holds x) :
    z = b.magnitude := by
  cases h with
  | @intro m e least leading short close tie =>
      rcases Int.lt_or_eq_of_le (place_le_of_holds hb hpos hx leading) with hlt | rfl
      · obtain ⟨hmantissa, he, hlow⟩ := power_of_lower_place hb hpos hx least hlt short
        have hunit : (0 : ℚ) < 2 ^ e := by positivity
        have hm := digits_of_lower_place hlow ((div_lt_iff₀ hunit).mpr short) close tie
        rw [Binary.magnitude, he, zpow_add_one₀ two_ne_zero, hm, hmantissa]
        push_cast
        ring
      · rw [Binary.magnitude, eq_of_same_place hpos hx close tie]

theorem holds_of_eq_magnitude (h : NearEven x z) (hz : z = b.magnitude) :
    (Interval.ofBinary b).Holds x := by
  rw [holds_ofBinary hpos]
  have hunit : (0 : ℚ) < 2 ^ b.exponent := by positivity
  cases h with
  | @intro m e least leading short close tie =>
      have hunit' : (0 : ℚ) < 2 ^ e := by positivity
      obtain ⟨hclose, hclose'⟩ := abs_le.mp close
      have hhigh : x / 2 ^ e < 2 ^ 53 := (div_lt_iff₀ hunit').mpr short
      have hle : m ≤ 2 ^ 53 := le_of_close close (by push_cast; exact hhigh.le)
      have hlong : e = -1074 ∨ 2 ^ 52 ≤ m := by
        refine leading.imp_right fun hfirst => ge_of_close close ?_
        push_cast
        exact (le_div_iff₀ hunit').mpr hfirst
      rcases Nat.lt_or_eq_of_le hle with hlt | rfl
      · obtain ⟨rfl, rfl⟩ := Canonical.unique ⟨hlt, least, hlong⟩ hb hz
        have hlow : b.mantissa - below b ≤ x / 2 ^ b.exponent ∧
            (b.mantissa - below b = x / 2 ^ b.exponent → Even b.mantissa) := by
          unfold below
          split
          · rename_i hpower
            have hfirst := (le_div_iff₀ hunit).mpr (leading.resolve_left (by omega))
            have hdigits : (b.mantissa : ℚ) = 2 ^ 52 := by exact_mod_cast hpower.1
            rw [hdigits]
            exact ⟨by linarith, fun _ => by rw [hpower.1]; decide⟩
          · refine ⟨by linarith, fun hhalf => tie ?_⟩
            rw [← hhalf]
            norm_num
        refine ⟨⟨hlow.1, by linarith⟩, fun hodd => ⟨lt_of_le_of_ne hlow.1 ?_, ?_⟩⟩
        · exact fun heq => hodd (hlow.2 heq)
        · refine lt_of_le_of_ne (by linarith) fun heq => hodd (tie ?_)
          rw [heq]
          norm_num
      · -- the digits have become a power of two
        have hcarry : ((2 ^ 53 : ℕ) : ℚ) * 2 ^ e = ((2 ^ 52 : ℕ) : ℚ) * 2 ^ (e + 1) := by
          rw [zpow_add_one₀ two_ne_zero]
          push_cast
          ring
        rw [hcarry] at hz
        obtain ⟨hm, he⟩ := Canonical.unique ⟨by decide, by omega, .inr le_rfl⟩ hb hz
        have hquarter : below b = 1 / 4 := if_pos ⟨hm.symm, by omega⟩
        have hscale : x / 2 ^ b.exponent = x / 2 ^ e / 2 := by
          rw [← he, zpow_add_one₀ two_ne_zero, div_div]
        rw [hquarter, hscale, ← hm]
        push_cast at hclose' ⊢
        refine ⟨⟨by linarith, by linarith⟩, fun hodd => absurd ?_ hodd⟩
        decide

/-- The interval holds what is rounded to the float. -/
theorem eq_magnitude_iff (h : NearEven x z) :
    z = b.magnitude ↔ (Interval.ofBinary b).Holds x :=
  ⟨holds_of_eq_magnitude hb hpos h, eq_magnitude_of_holds hb hpos h⟩

end Rounded

end ChatAgent.Shortest
