import ChatAgent.Proofs.Cursor
import ChatAgent.Proofs.IntegerTree

/-!
# Answers as expressions

Every integer of 64 bits is the answer to some expression, and no other integer is. The text of an
answer is an expression with the same value, but for that of the least integer, whose digits alone
do not fit (`evaluate_display`).
-/

namespace ChatAgent.Calculator

theorem fits_of_evaluate {s : String} {v : Number} (h : evaluate s = .ok v) : Fits v := by
  obtain ⟨ts, hts, hv⟩ := bind_eq_ok.mp h
  obtain ⟨⟨w, rest⟩, hw, hend⟩ := bind_eq_ok.mp hv
  obtain ⟨hfits, hlength⟩ := Token.ofText_fits hts
  have hlimits : Machine.Suit ⟨s.length + 1, maxDepth, 128, 20⟩ ts :=
    ⟨Nat.lt_succ_of_le hlength, Nat.le_refl _, Nat.le_refl _, hfits⟩
  have hread := Machine.expression_reads hlimits
    (Machine.operand_reads hlimits (Nat.zero_add maxDepth)) 0 ts ⟨Nat.zero_le _, List.drop_zero⟩
  rw [hw] at hread
  cases hread with
  | ok hfits =>
      cases rest with
      | nil =>
          cases hend
          exact hfits
      | cons t rest => cases hend

theorem toList_display_natCast (n : Nat) : (display (.int n)).toList = Nat.toDigits 10 n := by
  show (Nat.repr n).toList = _
  rw [Nat.repr, String.toList_ofList]

theorem toList_display_neg {n : Nat} (h : n ≠ 0) :
    (display (.int (-n))).toList = '-' :: Nat.toDigits 10 n := by
  obtain ⟨n, rfl⟩ := Nat.exists_eq_succ_of_ne_zero h
  show ("-" ++ Nat.repr (n + 1)).toList = _
  rw [Nat.repr, String.toList_append, String.toList_ofList, String.toList_ofList]
  rfl

/-- The digits of an integer are a literal, and with a sign they are its negation. -/
theorem evaluate_display_of_ne {n : Int} (h : FitsInt64 n) (hleast : n ≠ int64Min) :
    evaluate (display (.int n)) = .ok (.int n) := by
  unfold FitsInt64 int64Max at h
  unfold int64Min at h hleast
  obtain ⟨m, rfl | rfl⟩ := n.eq_nat_or_neg
  · have hspells : Token.Spells (IntegerTree.literal ⟨m, by omega⟩).tokens
        (display (.int m)).toList := by
      rw [toList_display_natCast, ← List.append_nil (Nat.toDigits 10 m)]
      exact .natural h.2 .nil
    exact IntegerTree.evaluate_of_spells _ hspells (Nat.le_of_ble_eq_true rfl) trivial
  · rcases Nat.eq_zero_or_pos m with rfl | hpos
    · with_unfolding_all rfl
    have hm : m ≤ int64Max := by
      unfold int64Max
      omega
    have hspells : Token.Spells (IntegerTree.negative (.literal ⟨m, by omega⟩)).tokens
        (display (.int (-m))).toList := by
      rw [toList_display_neg hpos.ne', ← List.append_nil (Nat.toDigits 10 m)]
      exact .symbol (s := ['-']) rfl (.natural hm .nil)
    have hfits : FitsInt64 (-m) := by
      unfold FitsInt64 int64Min int64Max
      omega
    rw [IntegerTree.evaluate_of_spells _ hspells (Nat.le_of_ble_eq_true rfl)
      ⟨trivial, fun _ => trivial⟩]
    simp [IntegerTree.firstFault?, IntegerTree.steps, IntegerTree.value, IntegerStep.fault?, hfits]

/-- Expressions have all integers of 64 bits as answers, and no others. The text of such an answer
has the same answer, unless it is the least integer: its digits without the sign do not fit. -/
theorem evaluate_display (n : Int) :
    ((∃ s, evaluate s = .ok (.int n)) ↔ FitsInt64 n) ∧
    ∀ s, evaluate s = .ok (.int n) →
      evaluate (display (.int n)) =
        if n = int64Min then .error .overflow else .ok (.int n) := by
  have hleast : evaluate "-9223372036854775807 - 1" = .ok (.int int64Min) := by
    with_unfolding_all rfl
  refine ⟨⟨fun ⟨s, hs⟩ => fits_of_evaluate hs, fun h => ?_⟩, fun s hs => ?_⟩
  · by_cases hn : n = int64Min
    · exact ⟨_, hn ▸ hleast⟩
    · exact ⟨_, evaluate_display_of_ne h hn⟩
  · split
    · rename_i hn
      subst hn
      with_unfolding_all rfl
    · rename_i hn
      exact evaluate_display_of_ne (fits_of_evaluate hs) hn

theorem evaluate_display_greatest :
    ∃ s, evaluate s = .ok (.int int64Max) ∧
      evaluate (display (.int int64Max)) = .ok (.int int64Max) := by
  obtain ⟨hanswers, hagain⟩ := evaluate_display int64Max
  obtain ⟨s, hs⟩ := hanswers.mpr (by decide)
  exact ⟨s, hs, (hagain s hs).trans (if_neg (by decide))⟩

/-- The least integer is an answer, but its text is an overflow. -/
theorem not_evaluate_display :
    (¬ ∀ s n, evaluate s = .ok (.int n) → evaluate (display (.int n)) = .ok (.int n)) ∧
    evaluate "-9223372036854775807 - 1" = .ok (.int int64Min) ∧
    display (.int int64Min) = "-9223372036854775808" ∧
    evaluate "-9223372036854775808" = .error .overflow := by
  have hanswer : evaluate "-9223372036854775807 - 1" = .ok (.int int64Min) := by
    with_unfolding_all rfl
  have htext : evaluate "-9223372036854775808" = .error .overflow := by with_unfolding_all rfl
  refine ⟨fun h => ?_, hanswer, rfl, htext⟩
  cases htext.symm.trans (h _ _ hanswer)

end ChatAgent.Calculator
