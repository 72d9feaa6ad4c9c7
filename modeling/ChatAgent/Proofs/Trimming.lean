import ChatAgent.Text.Blank
import Mathlib.Data.List.DropRight
import Mathlib.Data.List.TakeWhile

/-!
# What is trimmed from the ends of a text

Blank text in front of a text or after it is trimmed away with it (`Text.trim_padded`), and nothing
is left of a text only when all of it is blank (`Text.trim_eq_empty`). From an address the slashes
at its end are trimmed, and nothing else (`Text.trimSlashes_spec`).
-/

namespace ChatAgent.Text

variable {a b s : String}

theorem trim_of_ends {c d : Char} {cs : List Char} (hc : isBlank c = false)
    (hd : isBlank d = false) (h : s.toList = c :: (cs ++ [d])) : trim s = s := by
  have hleft : trimLeft s.toList = s.toList := by
    rw [h, trimLeft, List.dropWhile_cons_of_neg (by simp [hc])]
  have hright : trimRight s.toList = s.toList := by
    rw [h, trimRight, ← List.cons_append, List.reverse_append, List.reverse_singleton,
      List.singleton_append, List.dropWhile_cons_of_neg (by simp [hd])]
    simp
  rw [trim, hleft, hright, String.ofList_toList]

theorem isBlankText_iff : isBlankText s ↔ ∀ c ∈ s.toList, isBlank c := List.all_eq_true

theorem trimLeft_eq_nil : trimLeft s.toList = [] ↔ isBlankText s := by
  rw [isBlankText_iff, trimLeft, List.dropWhile_eq_nil_iff]

theorem trimRight_append {cs ds : List Char} (hd : ∀ d ∈ ds, isBlank d) :
    trimRight (cs ++ ds) = trimRight cs := by
  rw [trimRight, List.reverse_append,
    List.dropWhile_append_of_pos fun d h => hd d (List.mem_reverse.mp h)]
  rfl

theorem trim_append (hb : isBlankText b) : trim (s ++ b) = trim s := by
  rw [trim, trim, String.toList_append, trimLeft, List.dropWhile_append]
  split
  · -- then all of it is blank
    rename_i hnil
    have hs : trimLeft s.toList = [] := List.isEmpty_iff.mp hnil
    have hdropped : b.toList.dropWhile isBlank = [] := trimLeft_eq_nil.mpr hb
    rw [hs, hdropped]
  · rw [trimRight_append (isBlankText_iff.mp hb)]
    rfl

theorem trim_prepend (ha : isBlankText a) : trim (a ++ s) = trim s := by
  rw [trim, trim, String.toList_append, trimLeft,
    List.dropWhile_append_of_pos (isBlankText_iff.mp ha)]
  rfl

theorem trim_padded (ha : isBlankText a) (hb : isBlankText b) : trim (a ++ s ++ b) = trim s := by
  rw [trim_append hb, trim_prepend ha]

theorem trim_eq_empty : trim s = "" ↔ isBlankText s := by
  rw [trim, String.ofList_eq_empty_iff, trimRight, List.reverse_eq_nil_iff,
    List.dropWhile_eq_nil_iff, ← trimLeft_eq_nil]
  constructor
  · intro hblank
    -- the first character that is left would have been dropped
    cases hcs : trimLeft s.toList with
    | nil => rfl
    | cons c cs =>
        have hc : isBlank c = true := hblank c (by simp [hcs])
        have hfirst := List.head?_dropWhile_not isBlank s.toList
        rw [← trimLeft, hcs] at hfirst
        exact absurd hc (by simpa using hfirst)
  · intro h
    simp [h]

theorem trimSlashes_spec (s : String) :
    (∃ n, s = trimSlashes s ++ String.ofList (List.replicate n '/')) ∧
      (trimSlashes s).toList.getLast? ≠ some '/' := by
  have htoList : (trimSlashes s).toList = s.toList.rdropWhile (· == '/') := String.toList_ofList
  constructor
  · have hslashes : ∀ c ∈ s.toList.rtakeWhile (· == '/'), c = '/' := by
      intro c hc
      have hslash := List.mem_rtakeWhile_imp hc
      exact eq_of_beq hslash
    refine ⟨(s.toList.rtakeWhile (· == '/')).length, String.toList_inj.mp ?_⟩
    rw [String.toList_append, htoList, String.toList_ofList,
      ← List.eq_replicate_of_mem hslashes, List.rdropWhile_append_rtakeWhile]
  · rw [htoList]
    intro h
    by_cases hnil : s.toList.rdropWhile (· == '/') = []
    · rw [hnil] at h
      cases h
    · rw [List.getLast?_eq_some_getLast hnil] at h
      have hlast := List.rdropWhile_last_not _ _ hnil
      rw [Option.some.inj h] at hlast
      exact hlast rfl

end ChatAgent.Text
