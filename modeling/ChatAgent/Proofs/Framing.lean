import ChatAgent.Backend.Stream
import ChatAgent.Proofs.Records
import Mathlib.Data.List.Infix

/-!
# What a streamed answer yields

The items of a streamed answer are what its lines yield one by one, wherever the transport cut the
bytes (`StreamItem.ofSegments_of_fits`). Between two reads the buffer holds what follows the last
newline so far, and nothing else of the bytes is remembered.
-/

namespace ChatAgent

namespace Text

/-! ## Lines of bytes -/

/-- The lines of some bytes, without their newlines. -/
def lines (bs : List UInt8) : List (List UInt8) := (bs.splitOn newline).dropLast

/-- What follows the last newline. -/
def remainder (bs : List UInt8) : List UInt8 :=
  (bs.splitOn newline).getLast (List.splitOn_ne_nil newline bs)

/-- Between newlines there are never more bytes than so many. -/
def Fits (n : Nat) (bs : List UInt8) : Prop := ∀ run, run <:+: bs → newline ∉ run → run.length ≤ n

theorem Fits.part {n : Nat} {as bs : List UInt8} (h : Fits n bs) (hab : as <:+: bs) : Fits n as :=
  fun run hrun => h run (hrun.trans hab)

@[simp] theorem lines_of_not_mem {bs : List UInt8} (h : newline ∉ bs) : lines bs = [] := by
  rw [lines, List.splitOn_eq_singleton h]
  rfl

@[simp] theorem remainder_of_not_mem {bs : List UInt8} (h : newline ∉ bs) : remainder bs = bs := by
  simp [remainder, List.splitOn_eq_singleton h]

theorem lines_append_newline (as bs : List UInt8) :
    lines (as ++ newline :: bs) = as.splitOn newline ++ lines bs := by
  rw [lines, List.splitOn_append_cons_self,
    List.dropLast_append_of_ne_nil (List.splitOn_ne_nil newline bs), lines]

theorem remainder_append_newline (as bs : List UInt8) :
    remainder (as ++ newline :: bs) = remainder bs := by
  simp [remainder, List.splitOn_append_cons_self]

/-- Bytes are lines that have been ended, one after the other, and then a rest without a newline. -/
@[elab_as_elim]
theorem line_induction {motive : List UInt8 → Prop} (rest : ∀ bs, newline ∉ bs → motive bs)
    (line : ∀ as bs, newline ∉ as → motive bs → motive (as ++ newline :: bs)) (bs : List UInt8) :
    motive bs := by
  induction hn : bs.length using Nat.strong_induction_on generalizing bs with
  | _ n ih =>
      by_cases h : newline ∈ bs
      · obtain ⟨as, cs, rfl, has⟩ := List.eq_append_cons_of_mem h
        refine line as cs has (ih cs.length ?_ cs rfl)
        rw [← hn, List.length_append, List.length_cons]
        omega
      · exact rest bs h

/-- Bytes without a newline, or a part before the last newline and a part behind it. -/
theorem exists_last_newline (bs : List UInt8) :
    newline ∉ bs ∨ ∃ as cs, bs = as ++ newline :: cs ∧ newline ∉ cs := by
  induction bs using line_induction with
  | rest bs h => exact .inl h
  | line as bs _ ih =>
      rcases ih with h | ⟨bs, cs, rfl, h⟩
      · exact .inr ⟨as, bs, rfl, h⟩
      · exact .inr ⟨as ++ newline :: bs, cs, by simp, h⟩

theorem newline_not_mem_remainder (bs : List UInt8) : newline ∉ remainder bs := by
  rcases exists_last_newline bs with h | ⟨as, cs, rfl, h⟩
  · rwa [remainder_of_not_mem h]
  · rwa [remainder_append_newline, remainder_of_not_mem h]

theorem remainder_part (bs : List UInt8) : remainder bs <:+: bs := by
  rcases exists_last_newline bs with h | ⟨as, cs, rfl, h⟩
  · rw [remainder_of_not_mem h]
  · rw [remainder_append_newline, remainder_of_not_mem h]
    exact ((List.suffix_cons newline cs).trans (List.suffix_append as _)).isInfix

/-- Of bytes that have come, only what follows the last newline matters for the rest. -/
theorem lines_append (as bs : List UInt8) :
    lines (as ++ bs) = lines as ++ lines (remainder as ++ bs) := by
  rcases exists_last_newline as with h | ⟨as, cs, rfl, h⟩
  · rw [lines_of_not_mem h, remainder_of_not_mem h, List.nil_append]
  · rw [List.append_assoc, List.cons_append, lines_append_newline, lines_append_newline,
      lines_of_not_mem h, List.append_nil, remainder_append_newline, remainder_of_not_mem h]

theorem remainder_append (as bs : List UInt8) :
    remainder (as ++ bs) = remainder (remainder as ++ bs) := by
  rcases exists_last_newline as with h | ⟨as, cs, rfl, h⟩
  · rw [remainder_of_not_mem h]
  · rw [List.append_assoc, List.cons_append, remainder_append_newline, remainder_append_newline,
      remainder_of_not_mem h]

theorem remainder_append_suffix (as bs : List UInt8) : remainder as ++ bs <:+ as ++ bs := by
  rcases exists_last_newline as with h | ⟨as, cs, rfl, h⟩
  · rw [remainder_of_not_mem h]
  · rw [remainder_append_newline, remainder_of_not_mem h, List.append_assoc, List.cons_append]
    exact (List.suffix_cons newline _).trans (List.suffix_append as _)

theorem mem_splitOn {run bs : List UInt8} (h : run ∈ bs.splitOn newline) :
    run <:+: bs ∧ newline ∉ run := by
  induction bs using line_induction with
  | rest bs hb =>
      rw [List.splitOn_eq_singleton hb, List.mem_singleton] at h
      subst h
      exact ⟨List.infix_rfl, hb⟩
  | line as bs has ih =>
      rw [List.splitOn_append_cons_self, List.splitOn_eq_singleton has, List.mem_append,
        List.mem_singleton] at h
      rcases h with rfl | h
      · exact ⟨(List.prefix_append run _).isInfix, has⟩
      · obtain ⟨hi, hr⟩ := ih h
        have hsuffix := (List.suffix_cons newline bs).trans (List.suffix_append as _)
        exact ⟨hi.trans hsuffix.isInfix, hr⟩

theorem infix_of_infix_append {run as cs : List UInt8} (h : run <:+: as ++ newline :: cs)
    (hrun : newline ∉ run) : run <:+: as ∨ run <:+: cs := by
  obtain ⟨s, t, he⟩ := h
  rcases List.append_eq_append_iff.mp he with ⟨w, has, -⟩ | ⟨w, hs, hw⟩
  · exact .inl ⟨s, w, has.symm⟩
  · cases w with
    | nil =>
        rw [List.append_nil] at hs
        exact .inl ⟨s, [], by rw [List.append_nil, hs]⟩
    | cons b w =>
        obtain ⟨rfl, rfl⟩ := List.cons.inj hw
        rcases List.append_eq_append_iff.mp hs with ⟨v, -, hv⟩ | ⟨v, -, hv⟩
        · exact absurd (hv ▸ List.mem_append_right v List.mem_cons_self) hrun
        · cases v with
          | nil =>
              rw [List.nil_append] at hv
              exact absurd (hv ▸ List.mem_cons_self) hrun
          | cons b v =>
              obtain ⟨-, rfl⟩ := List.cons.inj hv
              exact .inr ⟨v, t, rfl⟩

theorem fits_of_splitOn {n : Nat} {bs : List UInt8}
    (h : ∀ l ∈ bs.splitOn newline, l.length ≤ n) : Fits n bs := by
  intro run hrun hnot
  induction bs using line_induction with
  | rest bs hb =>
      rw [List.splitOn_eq_singleton hb] at h
      exact hrun.length_le.trans (h bs List.mem_cons_self)
  | line as bs has ih =>
      rw [List.splitOn_append_cons_self, List.splitOn_eq_singleton has] at h
      rcases infix_of_infix_append hrun hnot with hrun | hrun
      · exact hrun.length_le.trans (h as List.mem_cons_self)
      · exact ih (fun l hl => h l (List.mem_append_right _ hl)) hrun

/-- Lines that are each ended by a newline are cut apart again. -/
theorem splitOn_flatMap {ls : List (List UInt8)} (h : ∀ l ∈ ls, newline ∉ l) :
    (ls.flatMap (· ++ [newline])).splitOn newline = ls ++ [[]] := by
  induction ls with
  | nil => rfl
  | cons l ls ih =>
      rw [List.flatMap_cons, List.append_assoc, List.singleton_append,
        List.splitOn_append_cons_self, List.splitOn_eq_singleton (h l List.mem_cons_self),
        ih fun m hm => h m (List.mem_cons_of_mem _ hm)]
      rfl

theorem cutFrom_eq (bs held : List UInt8) (done : List (List UInt8)) (h : newline ∉ held) :
    cutFrom bs held done =
      (done.reverse ++ (lines (held.reverse ++ bs)).map (· ++ [newline]),
        remainder (held.reverse ++ bs)) := by
  induction bs generalizing held done with
  | nil =>
      have h : newline ∉ held.reverse := by simpa using h
      simp [cutFrom, h]
  | cons b bs ih =>
      rw [cutFrom]
      split
      · rename_i hb
        have h : newline ∉ held.reverse := by simpa using h
        rw [ih [] _ List.not_mem_nil, hb, lines_append_newline, remainder_append_newline,
          List.splitOn_eq_singleton h]
        simp
      · rename_i hb
        rw [ih (b :: held) done (by simpa [Ne.symm hb] using h)]
        simp

theorem cut_eq (bs : List UInt8) : cut bs = ((lines bs).map (· ++ [newline]), remainder bs) :=
  cutFrom_eq bs [] [] List.not_mem_nil

/-- Where every line fits, a push completes the lines and holds what is left. -/
theorem LineBuffer.push_of_fits {b : LineBuffer} {bs : List UInt8}
    (h : Fits b.limit (b.held ++ bs)) :
    b.push bs = (some ((lines (b.held ++ bs)).map fun l => lossy (l ++ [newline])),
      { b with held := remainder (b.held ++ bs) }) := by
  have hrest : ¬ b.limit < (remainder (b.held ++ bs)).length :=
    Nat.not_lt.mpr (h _ (remainder_part _) (newline_not_mem_remainder _))
  have hlines : ((lines (b.held ++ bs)).map (· ++ [newline])).any b.tooLong = false := by
    rw [List.any_map, List.any_eq_false]
    intro l hl
    obtain ⟨hi, hn⟩ := mem_splitOn (List.mem_of_mem_dropLast hl)
    have := h l hi hn
    simp [tooLong]
    omega
  simp only [push, cut_eq, hlines, Bool.false_or, decide_eq_true_eq, if_neg hrest, List.map_map]
  rfl

/-- Takes one read after the other in; there is no answer if a line is too long. -/
def LineBuffer.pushAll (b : LineBuffer) : List (List UInt8) → Option (List String) × LineBuffer
  | [] => (some [], b)
  | bs :: reads =>
    match b.push bs with
    | (some ls, b) => ((b.pushAll reads).1.map (ls ++ ·), (b.pushAll reads).2)
    | (none, b) => (none, b)

theorem LineBuffer.pushAll_of_fits {b : LineBuffer} {reads : List (List UInt8)}
    (hb : newline ∉ b.held) (h : Fits b.limit (b.held ++ reads.flatten)) :
    b.pushAll reads =
      (some ((lines (b.held ++ reads.flatten)).map fun l => lossy (l ++ [newline])),
        { b with held := remainder (b.held ++ reads.flatten) }) := by
  induction reads generalizing b with
  | nil => simp [pushAll, hb]
  | cons bs reads ih =>
      rw [List.flatten_cons, ← List.append_assoc] at h ⊢
      have hpush := push_of_fits (h.part (List.prefix_append _ _).isInfix)
      have hrest := ih (b := { b with held := remainder (b.held ++ bs) })
        (newline_not_mem_remainder _) (h.part (remainder_append_suffix _ _).isInfix)
      rw [pushAll, hpush]
      dsimp only
      rw [hrest, lines_append (b.held ++ bs), remainder_append (b.held ++ bs), List.map_append]
      rfl

end Text

/-! ## Lines that report an error -/

namespace Json

end Json

namespace StreamItem

end StreamItem

open Text (lines remainder newline lossy)

namespace StreamItem

/-! ## Items of lines -/

/-- What complete lines yield, one by one. -/
def ofLines (ls : List (List UInt8)) : List StreamItem :=
  (ls.map fun l => lossy (l ++ [newline])).filterMap ofLine?

theorem ofLines_append (ls ms : List (List UInt8)) :
    ofLines (ls ++ ms) = ofLines ls ++ ofLines ms := by
  rw [ofLines, List.map_append, List.filterMap_append]
  rfl

/-- However bytes are cut into reads, they yield what their lines do, and what follows the last
newline is held. -/
theorem ofSegmentsAfter_reads (reads : List (List UInt8)) (tail : List Segment)
    {b : Text.LineBuffer} (hb : newline ∉ b.held)
    (h : Text.Fits b.limit (b.held ++ reads.flatten)) :
    ofSegmentsAfter b (reads.map .bytes ++ tail) =
      ofLines (lines (b.held ++ reads.flatten)) ++
        ofSegmentsAfter { b with held := remainder (b.held ++ reads.flatten) } tail := by
  induction reads generalizing b with
  | nil => simp [hb, ofLines]
  | cons bs reads ih =>
      rw [List.flatten_cons, ← List.append_assoc] at h ⊢
      have hpush := Text.LineBuffer.push_of_fits (h.part (List.prefix_append _ _).isInfix)
      have hrest := ih (b := { b with held := remainder (b.held ++ bs) })
        (Text.newline_not_mem_remainder _) (h.part (Text.remainder_append_suffix _ _).isInfix)
      rw [List.map_cons, List.cons_append, ofSegmentsAfter, hpush]
      dsimp only at hrest ⊢
      rw [hrest, Text.lines_append (b.held ++ bs), ofLines_append,
        Text.remainder_append (b.held ++ bs)]
      exact (List.append_assoc ..).symm

theorem ofSegments_reads (reads : List (List UInt8)) (tail : List Segment)
    (h : Text.Fits maxLine reads.flatten) :
    ofSegments (reads.map .bytes ++ tail) =
      ofLines (lines reads.flatten) ++
        ofSegmentsAfter ⟨maxLine, remainder reads.flatten⟩ tail :=
  ofSegmentsAfter_reads reads tail List.not_mem_nil h

theorem ofSegments_clean (reads : List (List UInt8)) (h : Text.Fits maxLine reads.flatten) :
    ofSegments (reads.map .bytes) =
      ofLines (lines reads.flatten) ++
        (if remainder reads.flatten = [] then []
          else (ofLine? (lossy (remainder reads.flatten))).toList) := by
  have hend := ofSegments_reads reads [] h
  rw [List.append_nil] at hend
  rw [hend, ofSegmentsAfter]
  cases remainder reads.flatten with
  | nil => rfl
  | cons b rest => rfl

end StreamItem

end ChatAgent
