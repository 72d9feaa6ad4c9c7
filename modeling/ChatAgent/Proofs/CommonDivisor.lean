import Mathlib.Algebra.GCDMonoid.Multiset
import Mathlib.Algebra.GCDMonoid.Nat
import ChatAgent.Proofs.UncheckedArithmetic

/-!
# Greatest common divisors

The common divisors of integers are the divisors of the one that is given, in whatever order they
stand (`call_gcd`). What has been found so far has to fit in 64 bits, and it does unless the first
argument that is not zero is the least integer; then there is an overflow, even if later arguments
would make the divisor smaller (`not_call_gcd`).
-/

namespace ChatAgent.Calculator

/-- The greatest common divisor of what has been found so far and of one more argument. -/
def divisorStep (g : Nat) (x : Number) : Except Fault Nat := do
  let n ← integer .gcd x
  let g := Nat.gcd g n.natAbs
  if (g : Int) ≤ int64Max then .ok g else .error .overflow

theorem greatestDivisor_eq_foldlM (args : List Number) :
    greatestDivisor args = (do
      let g ← args.foldlM divisorStep 0
      .ok (.int g)) := rfl

variable {n : Int} {ns : List Int}

theorem divisorStep_int (g : Nat) (n : Int) :
    divisorStep g (.int n) =
      if (Nat.gcd g n.natAbs : Int) ≤ int64Max then .ok (Nat.gcd g n.natAbs)
      else .error .overflow := rfl

theorem natAbs_gcd_cons (n : Int) (ns : List Int) :
    ((n :: ns : List Int) : Multiset Int).gcd.natAbs =
      Nat.gcd n.natAbs (ns : Multiset Int).gcd.natAbs := by
  rw [← Multiset.cons_coe, Multiset.gcd_cons, ← Int.coe_gcd, Int.natAbs_natCast]
  rfl

/-- From a divisor that is not zero no greater one is reached. -/
theorem foldlM_divisorStep {g : Nat} (hpos : 0 < g) (hg : (g : Int) ≤ int64Max) :
    (ns.map Number.int).foldlM divisorStep g =
      .ok (Nat.gcd g (ns : Multiset Int).gcd.natAbs) := by
  induction ns generalizing g with
  | nil =>
      rw [Multiset.coe_nil, Multiset.gcd_zero, Int.natAbs_zero, Nat.gcd_zero_right]
      rfl
  | cons n ns ih =>
      have hle : Nat.gcd g n.natAbs ≤ g := Nat.gcd_le_left _ hpos
      have hfits : (Nat.gcd g n.natAbs : Int) ≤ int64Max := by omega
      rw [List.map_cons, List.foldlM_cons, divisorStep_int, if_pos hfits, ok_bind,
        ih (Nat.gcd_pos_of_pos_left _ hpos) hfits, natAbs_gcd_cons, Nat.gcd_assoc]

theorem natAbs_le_int64Max (hn : FitsInt64 n) (hleast : n ≠ int64Min) :
    (n.natAbs : Int) ≤ int64Max := by
  unfold FitsInt64 int64Min int64Max at *
  omega

/-- Zeros in front leave nothing found; the first other argument decides. -/
theorem foldlM_divisorStep_zero (hfits : ∀ n ∈ ns, FitsInt64 n) :
    (ns.map Number.int).foldlM divisorStep 0 =
      if ns.find? (· ≠ 0) = some int64Min then .error .overflow
      else .ok (ns : Multiset Int).gcd.natAbs := by
  induction ns with
  | nil => rfl
  | cons n ns ih =>
      obtain ⟨hn, hns⟩ := List.forall_mem_cons.mp hfits
      rw [List.map_cons, List.foldlM_cons, divisorStep_int, Nat.gcd_zero_left, natAbs_gcd_cons]
      by_cases hzero : n = 0
      · subst hzero
        rw [List.find?_cons_of_neg (by simp), Int.natAbs_zero, Nat.gcd_zero_left, ← ih hns]
        rfl
      · rw [List.find?_cons_of_pos (by simpa using hzero)]
        by_cases hleast : n = int64Min
        · subst hleast
          rfl
        · have hmax := natAbs_le_int64Max hn hleast
          have hfirst : some n ≠ some int64Min := mt Option.some.inj hleast
          rw [if_neg hfirst, if_pos hmax, ok_bind,
            foldlM_divisorStep (Int.natAbs_pos.mpr hzero) hmax]

theorem gcd_nonneg (ns : List Int) : 0 ≤ (ns : Multiset Int).gcd := by
  rw [← Multiset.normalize_gcd]
  exact Int.nonneg_of_normalize_eq_self (normalize_idem _)

theorem call_gcd_eq (hfits : ∀ n ∈ ns, FitsInt64 n) :
    call "gcd" (ns.map .int) =
      if ns.find? (· ≠ 0) = some int64Min then .error .overflow
      else .ok (.int (ns : Multiset Int).gcd) := by
  show greatestDivisor (ns.map .int) = _
  rw [greatestDivisor_eq_foldlM, foldlM_divisorStep_zero hfits]
  split
  · rfl
  · rw [ok_bind, Int.natAbs_of_nonneg (gcd_nonneg ns)]

/-- Of integers of 64 bits that one is given, not negative, whose divisors are their common
divisors. The divisions on the way are never out of range. Only if the first argument that is not
zero is the least integer, there is an overflow; in any other order of the arguments the result is
the same, or such an overflow. -/
theorem call_gcd (hfits : ∀ n ∈ ns, FitsInt64 n) :
    ∃ g : Int, 0 ≤ g ∧ (∀ d : Int, d ∣ g ↔ ∀ n ∈ ns, d ∣ n) ∧
      call "gcd" (ns.map .int) =
        (if ns.find? (· ≠ 0) = some int64Min then .error .overflow else .ok (.int g)) ∧
      (ns.find? (· ≠ 0) ≠ some int64Min → FitsInt64 g) ∧
      Machine.call { rounds := 0, levels := 0, divisions := 128, products := 20 } "gcd"
        (ns.map .int) = some (call "gcd" (ns.map .int)) ∧
      ∀ ns' : List Int, ns'.Perm ns →
        (ns'.find? (· ≠ 0) = some int64Min ↔ ns.find? (· ≠ 0) = some int64Min) →
        call "gcd" (ns'.map .int) = call "gcd" (ns.map .int) := by
  have hargs : ∀ a ∈ ns.map Number.int, Fits a := List.forall_mem_map.mpr hfits
  refine ⟨(ns : Multiset Int).gcd, gcd_nonneg ns, fun d => Multiset.dvd_gcd, call_gcd_eq hfits,
    fun hfirst => ?_, Machine.call_eq (Nat.le_refl _) (Nat.le_refl _) "gcd" hargs,
    fun ns' hperm hfirst => ?_⟩
  · have hcall := call_gcd_eq hfits
    rw [if_neg hfirst] at hcall
    exact call_fits "gcd" hargs _ hcall
  · have hfits' : ∀ n ∈ ns', FitsInt64 n := fun n hn => hfits n (hperm.subset hn)
    rw [call_gcd_eq hfits, call_gcd_eq hfits', Multiset.coe_eq_coe.mpr hperm]
    exact if_congr hfirst rfl rfl

theorem call_gcd_mixed :
    call "gcd" [.int 0, .int 12, .int int64Min, .int (-18)] =
        call "gcd" [.int (-18), .int 0, .int int64Min, .int 12] ∧
      call "gcd" [.int (-18), .int 0, .int int64Min, .int 12] = .ok (.int 2) := by
  obtain ⟨-, -, -, -, -, -, hperm⟩ := @call_gcd [-18, 0, int64Min, 12] (by decide)
  exact ⟨hperm [0, 12, int64Min, -18] (by decide) (by decide), by decide⟩

/-- The greatest common divisor of the least integer and six is two, but it is given only if six
comes first. -/
theorem not_call_gcd :
    (¬ ∀ ns : List Int, (∀ n ∈ ns, FitsInt64 n) → FitsInt64 (ns : Multiset Int).gcd →
      call "gcd" (ns.map .int) = .ok (.int (ns : Multiset Int).gcd)) ∧
    (([int64Min, 6] : List Int) : Multiset Int).gcd = 2 ∧
    evaluate "gcd(-9223372036854775807 - 1, 6)" = .error .overflow ∧
    evaluate "gcd(6, -9223372036854775807 - 1)" = .ok (.int 2) := by
  have hgcd : (([int64Min, 6] : List Int) : Multiset Int).gcd = 2 := by decide
  refine ⟨fun h => ?_, hgcd, by with_unfolding_all rfl, by with_unfolding_all rfl⟩
  have htwo := h [int64Min, 6] (by decide) (by rw [hgcd]; decide)
  cases htwo

end ChatAgent.Calculator
