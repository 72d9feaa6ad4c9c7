import ChatAgent.Calculator.Evaluation
import ChatAgent.Proofs.FloatOfInteger

/-!
# Greatest and least arguments

Arguments are compared as floats. Of integers the first with the greatest float is given, or with
the least one (`call_extremes`). It is the greatest integer only as far as floats tell them apart:
integers of up to 53 binary digits they do, with others the result may be off by as much as 1024.
-/

namespace ChatAgent.Calculator

variable {m n x : Int} {ns xs : List Int}

/-- Choosing by the floats of integers is choosing by a relation that their floats decide. -/
theorem foldl_best (better : Float → Float → Bool) (r : Int → Int → Prop) [DecidableRel r]
    (hbetter : ∀ m n, FitsInt64 m → FitsInt64 n →
      (better (Number.int m).toFloat (Number.int n).toFloat ↔ r m n))
    (hfits : ∀ n ∈ x :: xs, FitsInt64 n) :
    ∃ m, xs.foldl (List.argAux r) (some x) = some m ∧
      (xs.map Number.int).foldl
        (fun best y => if better y.toFloat best.toFloat then y else best) (.int x) = .int m := by
  induction xs generalizing x with
  | nil => exact ⟨x, rfl, rfl⟩
  | cons y ys ih =>
    obtain ⟨hx, hrest⟩ := List.forall_mem_cons.mp hfits
    obtain ⟨hy, hys⟩ := List.forall_mem_cons.mp hrest
    rw [List.map_cons, List.foldl_cons, List.foldl_cons]
    by_cases hr : r y x
    · have hstep : List.argAux r (some x) y = some y := if_pos hr
      rw [hstep, if_pos ((hbetter y x hy hx).mpr hr)]
      exact ih (List.forall_mem_cons.mpr ⟨hy, hys⟩)
    · have hstep : List.argAux r (some x) y = some x := if_neg hr
      rw [hstep, if_neg (mt (hbetter y x hy hx).mp hr)]
      exact ih (List.forall_mem_cons.mpr ⟨hx, hys⟩)

theorem call_max (hne : ns ≠ []) (hfits : ∀ n ∈ ns, FitsInt64 n) :
    ∃ g, ns.argmax nearest = some g ∧ call "max" (ns.map .int) = .ok (.int g) := by
  obtain ⟨x, xs, rfl⟩ := List.exists_cons_of_ne_nil hne
  obtain ⟨g, harg, hbest⟩ := foldl_best (fun y best => best < y) (fun m n => nearest n < nearest m)
    (fun m n hm hn => decide_eq_true_iff.trans (ofInt_lt_iff hn hm)) hfits
  exact ⟨g, harg, congrArg Except.ok hbest⟩

theorem call_min (hne : ns ≠ []) (hfits : ∀ n ∈ ns, FitsInt64 n) :
    ∃ l, ns.argmin nearest = some l ∧ call "min" (ns.map .int) = .ok (.int l) := by
  obtain ⟨x, xs, rfl⟩ := List.exists_cons_of_ne_nil hne
  obtain ⟨l, harg, hbest⟩ := foldl_best (fun y best => y < best) (fun m n => nearest m < nearest n)
    (fun m n hm hn => decide_eq_true_iff.trans (ofInt_lt_iff hm hn)) hfits
  exact ⟨l, harg, congrArg Except.ok hbest⟩

/-- An integer whose float is not above that of another is itself hardly above it. -/
theorem le_of_nearest_le (hm : FitsInt64 m) (hn : FitsInt64 n) (h : nearest m ≤ nearest n) :
    m ≤ n + 1024 ∧ (n < m → nearest m = nearest n) := by
  have hnearm := nearest_near hm
  have hnearn := nearest_near hn
  exact ⟨by omega, fun hlt => Int.le_antisymm h (nearest_mono hlt.le)⟩

theorem le_of_nearest_le_of_short (hm : m.natAbs ≤ 2 ^ 53) (hn : n.natAbs ≤ 2 ^ 53)
    (h : nearest m ≤ nearest n) : m ≤ n := by
  rwa [nearest_of_le hm, nearest_of_le hn] at h

/-- Of any integers the first with the greatest float is given, and the first with the least one.
An argument beyond it has the same float, so it is at most 1024 further; up to 53 binary digits
there is none. In another order the arguments give a result with the same float. -/
theorem call_extremes (hne : ns ≠ []) (hfits : ∀ n ∈ ns, FitsInt64 n) :
    ∃ g l, call "max" (ns.map .int) = .ok (.int g) ∧ call "min" (ns.map .int) = .ok (.int l) ∧
      ns.argmax nearest = some g ∧ ns.argmin nearest = some l ∧ g ∈ ns ∧ l ∈ ns ∧
      (∀ n ∈ ns, n ≤ g + 1024 ∧ (g < n → nearest n = nearest g)) ∧
      (∀ n ∈ ns, l ≤ n + 1024 ∧ (n < l → nearest l = nearest n)) ∧
      ((∀ n ∈ ns, n.natAbs ≤ 2 ^ 53) → ∀ n ∈ ns, l ≤ n ∧ n ≤ g) ∧
      ∀ ns' : List Int, ns'.Perm ns →
        ∃ g' l', call "max" (ns'.map .int) = .ok (.int g') ∧
          call "min" (ns'.map .int) = .ok (.int l') ∧
          nearest g' = nearest g ∧ nearest l' = nearest l := by
  obtain ⟨g, hg, hmax⟩ := call_max hne hfits
  obtain ⟨l, hl, hmin⟩ := call_min hne hfits
  have hgmem : g ∈ ns := List.argmax_mem hg
  have hlmem : l ∈ ns := List.argmin_mem hl
  have hgreatest : ∀ n ∈ ns, nearest n ≤ nearest g := fun n hn => List.le_of_mem_argmax hn hg
  have hleast : ∀ n ∈ ns, nearest l ≤ nearest n := fun n hn => List.le_of_mem_argmin hn hl
  refine ⟨g, l, hmax, hmin, hg, hl, hgmem, hlmem, fun n hn => ?_, fun n hn => ?_,
    fun hshort n hn => ⟨?_, ?_⟩, fun ns' hperm => ?_⟩
  · exact le_of_nearest_le (hfits n hn) (hfits g hgmem) (hgreatest n hn)
  · exact le_of_nearest_le (hfits l hlmem) (hfits n hn) (hleast n hn)
  · exact le_of_nearest_le_of_short (hshort l hlmem) (hshort n hn) (hleast n hn)
  · exact le_of_nearest_le_of_short (hshort n hn) (hshort g hgmem) (hgreatest n hn)
  · have hne' : ns' ≠ [] := fun h => hne (List.nil_perm.mp (h ▸ hperm))
    have hfits' : ∀ n ∈ ns', FitsInt64 n := fun n hn => hfits n (hperm.subset hn)
    obtain ⟨g', hg', hmax'⟩ := call_max hne' hfits'
    obtain ⟨l', hl', hmin'⟩ := call_min hne' hfits'
    refine ⟨g', l', hmax', hmin', Int.le_antisymm ?_ ?_, Int.le_antisymm ?_ ?_⟩
    · exact hgreatest g' (hperm.subset (List.argmax_mem hg'))
    · exact List.le_of_mem_argmax (hperm.symm.subset hgmem) hg'
    · exact List.le_of_mem_argmin (hperm.symm.subset hlmem) hl'
    · exact hleast l' (hperm.subset (List.argmin_mem hl'))

/-- Both integers lie halfway between floats, and the float between them is the even one. -/
theorem call_extremes_halfway :
    call "max" [.int 4611686018427389440, .int 4611686018427390464] =
        .ok (.int 4611686018427389440) ∧
      call "min" [.int 4611686018427390464, .int 4611686018427389440] =
        .ok (.int 4611686018427390464) ∧
      (4611686018427390464 : Int) = 4611686018427389440 + 1024 := by
  obtain ⟨g, -, hmax, -, hg, -⟩ :=
    @call_extremes [4611686018427389440, 4611686018427390464] (by decide) (by decide)
  obtain ⟨-, l, -, hmin, -, hl, -⟩ :=
    @call_extremes [4611686018427390464, 4611686018427389440] (by decide) (by decide)
  have hgreatest : some g = some 4611686018427389440 := hg.symm.trans (by decide +kernel)
  have hleast : some l = some 4611686018427390464 := hl.symm.trans (by decide +kernel)
  cases hgreatest
  cases hleast
  exact ⟨hmax, hmin, rfl⟩

/-- Two integers with one float: the first of them is given, be it the greater or the lesser. -/
theorem not_call_extremes :
    (¬ ∀ ns : List Int, ns ≠ [] → (∀ n ∈ ns, FitsInt64 n) →
      ∃ g, call "max" (ns.map .int) = .ok (.int g) ∧ g ∈ ns ∧ ∀ n ∈ ns, n ≤ g) ∧
    (¬ ∀ ns : List Int, ns ≠ [] → (∀ n ∈ ns, FitsInt64 n) →
      ∃ l, call "min" (ns.map .int) = .ok (.int l) ∧ l ∈ ns ∧ ∀ n ∈ ns, l ≤ n) ∧
    evaluate "max(9007199254740992, 9007199254740993)" = .ok (.int 9007199254740992) ∧
    evaluate "max(9007199254740993, 9007199254740992)" = .ok (.int 9007199254740993) := by
  refine ⟨fun h => ?_, fun h => ?_, by decide +kernel, by decide +kernel⟩
  · obtain ⟨g, hmax, -, hgreatest⟩ :=
      h [9007199254740992, 9007199254740993] (by decide) (by decide)
    have hgiven : call "max" ([9007199254740992, 9007199254740993].map .int) =
        .ok (.int 9007199254740992) := by decide +kernel
    cases hmax.symm.trans hgiven
    exact absurd (hgreatest 9007199254740993 (by decide)) (by decide)
  · obtain ⟨l, hmin, -, hleast⟩ :=
      h [9007199254740993, 9007199254740992] (by decide) (by decide)
    have hgiven : call "min" ([9007199254740993, 9007199254740992].map .int) =
        .ok (.int 9007199254740993) := by decide +kernel
    cases hmin.symm.trans hgiven
    exact absurd (hleast 9007199254740992 (by decide)) (by decide)

end ChatAgent.Calculator
