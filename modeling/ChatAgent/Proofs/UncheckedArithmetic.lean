import Mathlib.Algebra.Group.Nat.Defs
import ChatAgent.Proofs.Expression
import ChatAgent.Proofs.Words

/-!
# Arithmetic that is not checked

Some operations on words are carried out without a check. Here they have no outcome where they would
crash: where a result leaves the 64 bits, and where there is no remainder. They never do, whatever
the operands (`Machine.floorDivide_eq`, `Machine.modulo_eq`, `Machine.call_eq`), and the loops of
functions end soon.
-/

namespace ChatAgent.Calculator

namespace Machine

/-- How far loops and recursions go at most. -/
structure Limits where
  /-- Rounds of a loop over characters or tokens. -/
  rounds : Nat
  /-- Operands inside operands. -/
  levels : Nat
  /-- Divisions for one argument of `gcd`. -/
  divisions : Nat
  /-- Multiplications for `factorial`. -/
  products : Nat

/-- The word that an unchecked operation gives. -/
def word (n : Int) : Option Int := if FitsInt64 n then some n else none

/-- There are a quotient and a remainder. -/
def HasQuotient (a b : Int) : Prop := b ≠ 0 ∧ ¬ (a = int64Min ∧ b = -1)

instance (a b : Int) : Decidable (HasQuotient a b) := by unfold HasQuotient; infer_instance

/-- The unchecked remainder, with the sign of the dividend. -/
def remainder (a b : Int) : Option Int := if HasQuotient a b then some (Int.tmod a b) else none

/-- The quotient, rounded down. Only the quotient rounded towards zero is checked. -/
def floorDivide : Number → Number → Option Result
  | .int a, .int b =>
    if b = 0 then some (.error .divisionByZero)
    else if ¬ HasQuotient a b then some (.error .overflow)
    else do
      let r ← remainder a b
      if r ≠ 0 ∧ (a < 0 : Bool) ≠ (b < 0 : Bool) then
        let q ← word (Int.tdiv a b - 1)
        some (.ok (.int q))
      else some (.ok (.int (Int.tdiv a b)))
  | a, b => some (Calculator.floorDivide a b)

/-- What is left over by `floorDivide`. Only the remainder of the dividend's sign is checked. -/
def modulo : Number → Number → Option Result
  | .int a, .int b =>
    if b = 0 then some (.error .divisionByZero)
    else if ¬ HasQuotient a b then some (.error .overflow)
    else do
      let r := Int.tmod a b
      if r ≠ 0 ∧ (r < 0 : Bool) ≠ (b < 0 : Bool) then
        let r ← word (r + b)
        some (.ok (.int r))
      else some (.ok (.int r))
  | a, b => some (Calculator.modulo a b)

/-- Takes remainders until there is none. -/
def euclid : Nat → Int → Int → Option Int
  | 0, a, b => if b = 0 then some a else none
  | divisions + 1, a, b =>
    if b = 0 then some a
    else do
      let r ← remainder a b
      euclid divisions b r

/-- The greatest common divisor of `acc` and all arguments. -/
def greatestDivisor (divisions : Nat) : Int → List Number → Option Result
  | acc, [] => some (.ok (.int acc))
  | acc, x :: xs =>
    match integer .gcd x with
    | .error e => some (.error e)
    | .ok b => do
      let a ← euclid divisions acc b
      if a = int64Min then some (.error .overflow)
      else greatestDivisor divisions a.natAbs xs

/-- Multiplies `acc` by the numbers from `k` to `n`, each time checked. -/
def multiply : Nat → Int → Int → Int → Option Result
  | products, n, k, acc =>
    if n < k then some (.ok (.int acc))
    else
      match products with
      | 0 => none
      | products + 1 =>
        if FitsInt64 (acc * k) then multiply products n (k + 1) (acc * k)
        else some (.error .overflow)

def factorial (products : Nat) (args : List Number) : Option Result :=
  match Calculator.one .factorial args with
  | .error e => some (.error e)
  | .ok x =>
    match integer .factorial x with
    | .error e => some (.error e)
    | .ok n =>
      if n < 0 then some (.error (.type .negativeFactorial)) else multiply products n 2 1

def apply (limits : Limits) (f : Function) (args : List Number) : Option Result :=
  match f with
  | .factorial => factorial limits.products args
  | .gcd => greatestDivisor limits.divisions 0 args
  | f => some (Calculator.apply f args)

def call (limits : Limits) (name : String) (args : List Number) : Option Result :=
  match function? (Text.lowercase name) with
  | some f => apply limits f args
  | none => some (Calculator.call name args)

/-! ### Division -/

theorem fdiv_eq {a b : Int} (hb : b ≠ 0) :
    Int.fdiv a b =
      if Int.tmod a b ≠ 0 ∧ (a < 0 : Bool) ≠ (b < 0 : Bool) then Int.tdiv a b - 1
      else Int.tdiv a b := by
  simp only [Int.fdiv_eq_tdiv, Int.dvd_iff_tmod_eq_zero]
  rcases Int.lt_or_gt_of_ne hb with hb | hb
  · rw [Int.sign_eq_neg_one_of_neg hb]
    by_cases hr : Int.tmod a b = 0 <;> by_cases ha : a < 0 <;> simp [hr, ha, hb] <;> omega
  · rw [Int.sign_eq_one_of_pos hb]
    by_cases hr : Int.tmod a b = 0 <;> by_cases ha : a < 0 <;> simp [hr, ha] <;> omega

/-- The remainder has the sign of the dividend. -/
theorem tmod_neg_iff {a b : Int} (hr : Int.tmod a b ≠ 0) : Int.tmod a b < 0 ↔ a < 0 := by
  constructor
  · intro h
    apply Int.not_le.mp
    intro ha
    have := Int.tmod_nonneg b ha
    omega
  · intro ha
    have hneg := Int.tmod_nonneg b (Int.neg_nonneg_of_nonpos (Int.le_of_lt ha))
    rw [Int.neg_tmod] at hneg
    omega

theorem fmod_eq {a b : Int} (hb : b ≠ 0) :
    Int.fmod a b =
      if Int.tmod a b ≠ 0 ∧ (Int.tmod a b < 0 : Bool) ≠ (b < 0 : Bool) then Int.tmod a b + b
      else Int.tmod a b := by
  rw [Int.fmod_def, fdiv_eq hb]
  by_cases hr : Int.tmod a b = 0
  · rw [if_neg fun h => h.1 hr, if_neg fun h => h.1 hr, Int.tmod_def]
  · simp only [tmod_neg_iff hr]
    split
    · rw [Int.mul_sub, Int.mul_one, Int.tmod_def]
      omega
    · rw [Int.tmod_def]

/-- The one quotient that is a step further from zero is not the greatest. -/
theorem fitsInt64_fdiv {a b : Int} (ha : FitsInt64 a) (h : HasQuotient a b) :
    FitsInt64 (Int.fdiv a b) := by
  obtain ⟨hb, hleast⟩ := h
  have hquotient : (Int.tdiv a b).natAbs = a.natAbs / b.natAbs := Int.natAbs_tdiv a b
  rw [fdiv_eq hb]
  unfold FitsInt64 int64Min int64Max at *
  -- only 1 and -1 leave a quotient as great as the dividend, and they leave no remainder
  by_cases hone : b.natAbs = 1
  · have hr : Int.tmod a b = 0 := by
      rw [← Int.natAbs_eq_zero, Int.natAbs_tmod, hone, Nat.mod_one]
    rw [if_neg (by simp [hr])]
    rcases Int.natAbs_eq b with hsign | hsign <;> rw [hone] at hsign <;> subst hsign
    · rw [show ((1 : Nat) : Int) = 1 from rfl, Int.tdiv_one]
      exact ha
    · rw [show -((1 : Nat) : Int) = -1 from rfl, Int.tdiv_neg, Int.tdiv_one]
      omega
  · have hhalf : a.natAbs / b.natAbs ≤ a.natAbs / 2 := Nat.div_le_div_left (by omega) (by decide)
    split <;> omega

/-- A remainder and a divisor of different signs add up to less than either. -/
theorem fitsInt64_fmod {a b : Int} (hb : FitsInt64 b) (h : HasQuotient a b) :
    FitsInt64 (Int.fmod a b) := by
  have hremainder := Int.natAbs_tmod a b
  have hlt : a.natAbs % b.natAbs < b.natAbs := Nat.mod_lt _ (Int.natAbs_pos.mpr h.1)
  rw [fmod_eq h.1]
  unfold FitsInt64 int64Min int64Max at *
  split
  · rename_i hsign
    simp only [ne_eq, decide_eq_decide] at hsign
    omega
  · omega

theorem not_hasQuotient {a b : Int} (hb : b ≠ 0) (h : ¬ HasQuotient a b) : a = int64Min ∧ b = -1 := by
  simpa [HasQuotient, hb] using h

theorem floorDivide_eq {v w : Number} (hv : Fits v) :
    floorDivide v w = some (Calculator.floorDivide v w) := by
  cases v with
  | float => rfl
  | int a =>
      cases w with
      | float => rfl
      | int b =>
          rw [floorDivide, Calculator.floorDivide]
          by_cases hb : b = 0
          · simp [isZero, hb]
          by_cases hab : HasQuotient a b
          · have hfits := fitsInt64_fdiv hv hab
            simp only [isZero, beq_iff_eq, hb, hab, exact, if_pos hfits, remainder,
              not_true_eq_false, if_false, if_true, Option.bind_eq_bind, Option.bind_some]
            rw [fdiv_eq hb] at hfits ⊢
            split
            · rename_i hstep
              rw [if_pos hstep] at hfits
              rw [word, if_pos hfits]
              rfl
            · rfl
          · obtain ⟨rfl, rfl⟩ := not_hasQuotient hb hab
            rfl

theorem modulo_eq {v w : Number} (hw : Fits w) :
    modulo v w = some (Calculator.modulo v w) := by
  cases v with
  | float => rfl
  | int a =>
      cases w with
      | float => rfl
      | int b =>
          rw [modulo, Calculator.modulo]
          by_cases hb : b = 0
          · simp [isZero, hb]
          by_cases hab : HasQuotient a b
          · have hfits := fitsInt64_fmod hw hab
            simp only [isZero, beq_iff_eq, hb, hab, hab.2, exact, if_pos hfits,
              not_true_eq_false, if_false]
            rw [fmod_eq hb] at hfits ⊢
            split
            · rename_i hstep
              rw [if_pos hstep] at hfits
              rw [word, if_pos hfits]
              rfl
            · rfl
          · obtain ⟨rfl, rfl⟩ := not_hasQuotient hb hab
            rfl

/-! ### The greatest common divisor -/

@[simp] theorem euclid_zero (n : Nat) (a : Int) : euclid n a 0 = some a := by
  cases n <;> simp [euclid]

theorem euclid_succ {n : Nat} {a b : Int} (hsign : 0 ≤ a ∨ 0 ≤ b) (hb : b ≠ 0) :
    euclid (n + 1) a b = euclid n b (Int.tmod a b) := by
  have hab : HasQuotient a b := by
    refine ⟨hb, ?_⟩
    unfold int64Min
    omega
  rw [euclid, if_neg hb, remainder, if_pos hab]
  rfl

theorem gcd_tmod (a b : Int) : Int.gcd b (Int.tmod a b) = Int.gcd a b := by
  unfold Int.gcd
  rw [Int.natAbs_tmod, Nat.gcd_comm, ← Nat.gcd_rec, Nat.gcd_comm]

theorem tmod_nonneg_or {a b : Int} (h : 0 ≤ a ∨ 0 ≤ b) : 0 ≤ b ∨ 0 ≤ Int.tmod a b :=
  h.symm.imp_right (Int.tmod_nonneg b)

theorem fitsInt64_tmod {a b : Int} (hb : FitsInt64 b) (hne : b ≠ 0) : FitsInt64 (Int.tmod a b) := by
  have hremainder := Int.natAbs_tmod a b
  have hlt : a.natAbs % b.natAbs < b.natAbs := Nat.mod_lt _ (Int.natAbs_pos.mpr hne)
  unfold FitsInt64 int64Min int64Max at *
  omega

/-- The remainder of a remainder is less than half of what was divided by. -/
theorem natAbs_tmod_tmod {a b : Int} (hb : b ≠ 0) (hr : Int.tmod a b ≠ 0) :
    2 * (Int.tmod b (Int.tmod a b)).natAbs < b.natAbs := by
  have hlt : (Int.tmod a b).natAbs < b.natAbs := by
    rw [Int.natAbs_tmod]
    exact Nat.mod_lt _ (Int.natAbs_pos.mpr hb)
  have hsmall : b.natAbs % (Int.tmod a b).natAbs < (Int.tmod a b).natAbs :=
    Nat.mod_lt _ (Int.natAbs_pos.mpr hr)
  have hrest : b.natAbs % (Int.tmod a b).natAbs ≤ b.natAbs - (Int.tmod a b).natAbs := by
    rw [Nat.mod_eq_sub_mod (Nat.le_of_lt hlt)]
    exact Nat.mod_le _ _
  rw [Int.natAbs_tmod]
  omega

/-- One of the two numbers is never negative, so the least word is not divided by -1. -/
theorem euclid_eq {n k : Nat} {a b : Int} (hsign : 0 ≤ a ∨ 0 ≤ b) (ha : FitsInt64 a)
    (hb : FitsInt64 b) (hk : b.natAbs < 2 ^ k) (hn : 2 * k ≤ n) :
    ∃ g, euclid n a b = some g ∧ FitsInt64 g ∧ g.natAbs = Int.gcd a b := by
  induction k generalizing n a b with
  | zero =>
      obtain rfl : b = 0 := by omega
      exact ⟨a, euclid_zero n a, ha, (Int.gcd_zero_right a).symm⟩
  | succ k ih =>
      -- two divisions at a time: after them the second number has lost a binary digit
      obtain ⟨n, rfl⟩ : ∃ m, n = m + 2 := ⟨n - 2, by omega⟩
      by_cases hzero : b = 0
      · subst hzero
        exact ⟨a, euclid_zero _ a, ha, (Int.gcd_zero_right a).symm⟩
      have hsign' := tmod_nonneg_or hsign
      have hr := fitsInt64_tmod (a := a) hb hzero
      rw [euclid_succ hsign hzero, ← gcd_tmod a b]
      by_cases hrzero : Int.tmod a b = 0
      · rw [hrzero]
        exact ⟨b, euclid_zero _ b, hb, (Int.gcd_zero_right b).symm⟩
      · have hhalf := natAbs_tmod_tmod hzero hrzero
        rw [euclid_succ hsign' hrzero, ← gcd_tmod b]
        exact ih (tmod_nonneg_or hsign') hr (fitsInt64_tmod hr hrzero) (by omega) (by omega)

theorem greatestDivisor_from {divisions : Nat} (hlimit : 128 ≤ divisions) {args : List Number}
    (h : ∀ a ∈ args, Fits a) {g : Nat} (hg : (g : Int) ≤ int64Max) :
    greatestDivisor divisions g args = some (do
      let g ← args.foldlM (fun (g : Nat) x => do
        let n ← integer .gcd x
        let g := Nat.gcd g n.natAbs
        if (g : Int) ≤ int64Max then .ok g else .error .overflow) g
      .ok (.int g)) := by
  induction args generalizing g with
  | nil => rfl
  | cons x xs ih =>
      obtain ⟨hx, hxs⟩ := List.forall_mem_cons.mp h
      cases x with
      | float x => rfl
      | int b =>
          have hb : FitsInt64 b := hx
          have hsmall : b.natAbs < 2 ^ 64 := by
            unfold FitsInt64 int64Min int64Max at hb
            omega
          obtain ⟨a, heuclid, ha, hgcd⟩ := euclid_eq (.inl (Int.natCast_nonneg g))
            ⟨Int.le_trans (by decide) (Int.natCast_nonneg g), hg⟩ hb hsmall hlimit
          have hgcd : Nat.gcd g b.natAbs = a.natAbs := hgcd.symm
          simp only [greatestDivisor, integer, heuclid, List.foldlM_cons, ok_bind, hgcd,
            Option.bind_eq_bind, Option.bind_some]
          by_cases hleast : a = int64Min
          · subst hleast
            rfl
          · have hfits : (a.natAbs : Int) ≤ int64Max := by
              unfold FitsInt64 at ha
              unfold int64Min int64Max at *
              omega
            rw [if_neg hleast, if_pos hfits, ih hxs hfits]
            rfl

theorem greatestDivisor_eq {divisions : Nat} (hlimit : 128 ≤ divisions) {args : List Number}
    (h : ∀ a ∈ args, Fits a) :
    greatestDivisor divisions 0 args = some (Calculator.greatestDivisor args) :=
  greatestDivisor_from hlimit h (by decide : ((0 : Nat) : Int) ≤ int64Max)

/-! ### Factorials -/

theorem fitsInt64_product : ∀ n < 22, FitsInt64 (product n) ↔ n ≤ 20 := by decide

theorem multiply_eq {products : Nat} {n : Int} {k : Nat} (hk : 1 ≤ k ∧ k ≤ 20)
    (hlimit : 21 ≤ k + products) (hn : k ≤ n) :
    multiply products n (k + 1) (product k) =
      some (if 20 < n then .error .overflow else exact (product n.toNat)) := by
  -- the product of the numbers up to 20 is the last that fits, so the 20th multiplication fails
  induction products generalizing k with
  | zero => omega
  | succ products ih =>
      rw [multiply]
      by_cases hlast : n < k + 1
      · obtain rfl : n = k := by omega
        rw [if_pos hlast, if_neg (by omega), exact, Int.toNat_natCast,
          if_pos ((fitsInt64_product k (by omega)).mpr hk.2)]
      · have hproduct : (product k : Int) * (k + 1) = product (k + 1) := by
          rw [product]
          push_cast
          exact Int.mul_comm _ _
        have hfits := fitsInt64_product (k + 1) (by omega)
        rw [if_neg hlast]
        simp only [hproduct]
        by_cases hk' : k + 1 ≤ 20
        · have hnext : ((k + 1 : Nat) : Int) ≤ n := by omega
          have hleft : 21 ≤ k + 1 + products := by omega
          rw [if_pos (hfits.mpr hk')]
          exact ih ⟨Nat.le_add_left 1 k, hk'⟩ hleft hnext
        · rw [if_neg (mt hfits.mp hk'), if_pos (by omega)]

theorem factorial_eq {products : Nat} (hlimit : 20 ≤ products) (args : List Number) :
    factorial products args = some (Calculator.factorial args) := by
  unfold factorial Calculator.factorial
  cases Calculator.one .factorial args with
  | error e => rfl
  | ok x =>
      cases x with
      | float x => rfl
      | int n =>
          simp only [integer, ok_bind]
          by_cases hnegative : n < 0
          · simp [hnegative]
          rw [if_neg hnegative, if_neg hnegative]
          by_cases hzero : n = 0
          · subst hzero
            cases products <;> rfl
          · exact multiply_eq (k := 1) (by omega) (by omega) (by omega)

theorem apply_eq {limits : Limits} (hdivisions : 128 ≤ limits.divisions)
    (hproducts : 20 ≤ limits.products) (f : Function) {args : List Number}
    (h : ∀ a ∈ args, Fits a) : apply limits f args = some (Calculator.apply f args) := by
  cases f with
  | factorial => exact factorial_eq hproducts args
  | gcd => exact greatestDivisor_eq hdivisions h
  | _ => rfl

theorem call_eq {limits : Limits} (hdivisions : 128 ≤ limits.divisions)
    (hproducts : 20 ≤ limits.products) (name : String) {args : List Number}
    (h : ∀ a ∈ args, Fits a) : call limits name args = some (Calculator.call name args) := by
  unfold call
  cases hf : function? (Text.lowercase name) with
  | none => rfl
  | some f =>
      rw [Calculator.call]
      simp only [hf]
      exact apply_eq hdivisions hproducts f h

end Machine

end ChatAgent.Calculator
