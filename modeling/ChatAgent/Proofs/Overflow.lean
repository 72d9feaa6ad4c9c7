import ChatAgent.Proofs.Framing
import ChatAgent.Proofs.Utf8

/-!
# Lines that are too long

A buffer refuses bytes just if a line in them is too long, wherever the reads were cut, and
otherwise gives back the text of all the bytes, cut at its newlines (`LineBuffer.pushAll_exact`).
Which lines it hands out before it refuses depends on the reads, though: those that come together
with the one that is too long are lost (`StreamItem.ofSegments_overflow`).
-/

namespace ChatAgent

namespace Text

/-! ## Texts cut at their newlines -/

/-- A text cut directly after each of its newlines. -/
def cutAfterNewlines : List Char → List (List Char)
  | [] => []
  | c :: cs =>
    if c = '\n' then [c] :: cutAfterNewlines cs
    else
      match cutAfterNewlines cs with
      | [] => [[c]]
      | piece :: pieces => (c :: piece) :: pieces

theorem cutAfterNewlines_line {as : List Char} (h : '\n' ∉ as) (bs : List Char) :
    cutAfterNewlines (as ++ '\n' :: bs) = (as ++ ['\n']) :: cutAfterNewlines bs := by
  induction as with
  | nil => simp [cutAfterNewlines]
  | cons a as ih =>
      rw [List.mem_cons, not_or] at h
      rw [List.cons_append, cutAfterNewlines, if_neg (Ne.symm h.1), ih h.2]
      rfl

theorem cutAfterNewlines_rest {as : List Char} (h : '\n' ∉ as) (hne : as ≠ []) :
    cutAfterNewlines as = [as] := by
  induction as with
  | nil => exact absurd rfl hne
  | cons a as ih =>
      rw [List.mem_cons, not_or] at h
      rw [cutAfterNewlines, if_neg (Ne.symm h.1)]
      cases as with
      | nil => rfl
      | cons b as => rw [ih h.2 (List.cons_ne_nil b as)]

/-- Bytes can be decoded as a whole and then cut, or cut and then decoded. -/
theorem cutAfterNewlines_lossy (bs : List UInt8) :
    (cutAfterNewlines (lossy bs).toList).map String.ofList =
      (lines bs).map (fun l => lossy (l ++ [newline])) ++
        if remainder bs = [] then [] else [lossy (remainder bs)] := by
  induction bs using line_induction with
  | rest bs h =>
      rw [lines_of_not_mem h, remainder_of_not_mem h, List.map_nil, List.nil_append]
      split
      · rename_i hnil
        rw [hnil]
        rfl
      · rename_i hne
        rw [cutAfterNewlines_rest (newline_not_mem_lossy h) (lossy_ne_nil hne)]
        simp
  | line as bs h ih =>
      have hline : lossy (as ++ [newline]) = String.ofList ((lossy as).toList ++ ['\n']) := by
        rw [← String.toList_inj, newline, lossy_append_newline h, String.toList_ofList]
        rfl
      rw [newline, lossy_append_newline h, cutAfterNewlines_line (newline_not_mem_lossy h),
        ← newline, lines_append_newline, remainder_append_newline, List.splitOn_eq_singleton h,
        List.map_cons, ih]
      simp [hline]

theorem remainder_eq_nil_iff (bs : List UInt8) :
    remainder bs = [] ↔ bs = [] ∨ bs.getLast? = some newline := by
  rcases exists_last_newline bs with h | ⟨as, cs, rfl, h⟩
  · rw [remainder_of_not_mem h]
    exact ⟨.inl, fun hlast => hlast.resolve_right fun he => h (List.mem_of_getLast? he)⟩
  · rw [remainder_append_newline, remainder_of_not_mem h]
    cases cs with
    | nil => simp
    | cons c cs =>
        have hlast : (as ++ newline :: c :: cs).getLast? = (c :: cs).getLast? := by
          rw [List.getLast?_append_cons, List.getLast?_cons_cons]
        refine ⟨nofun, fun he => ?_⟩
        rw [hlast] at he
        exact absurd (List.mem_of_getLast? (he.resolve_left (by simp))) h

/-! ## Bytes that do not fit -/

theorem fits_append {n : Nat} {as bs : List UInt8} :
    Fits n (as ++ bs) ↔ Fits n as ∧ Fits n (remainder as ++ bs) := by
  constructor
  · exact fun h => ⟨h.part (List.prefix_append as bs).isInfix,
      h.part (remainder_append_suffix as bs).isInfix⟩
  · rintro ⟨has, hbs⟩
    rcases exists_last_newline as with h | ⟨as, cs, rfl, h⟩
    · rwa [remainder_of_not_mem h] at hbs
    · rw [remainder_append_newline, remainder_of_not_mem h] at hbs
      intro run hrun hnot
      rw [List.append_assoc, List.cons_append] at hrun
      rcases infix_of_infix_append hrun hnot with hrun | hrun
      · exact has run (hrun.trans (List.prefix_append as _).isInfix) hnot
      · exact hbs run hrun hnot

theorem not_fits_iff {n : Nat} {bs : List UInt8} :
    ¬ Fits n bs ↔ ∃ run, run <:+: bs ∧ newline ∉ run ∧ n < run.length := by
  simp [Fits]

namespace LineBuffer

variable {b : LineBuffer} {bs : List UInt8}

/-- Where a line is too long, a push answers nothing and forgets all that has been held. -/
theorem push_of_not_fits (h : ¬ Fits b.limit (b.held ++ bs)) :
    b.push bs = (none, { b with held := [] }) := by
  simp only [push, cut_eq]
  rw [if_pos]
  by_contra hok
  rw [Bool.or_eq_true, decide_eq_true_eq, not_or, Bool.not_eq_true, List.any_map,
    List.any_eq_false] at hok
  obtain ⟨hlines, hrest⟩ := hok
  refine h (fits_of_splitOn fun l hl => ?_)
  rw [← List.dropLast_append_getLast (List.splitOn_ne_nil newline (b.held ++ bs)),
    List.mem_append, List.mem_singleton] at hl
  rcases hl with hl | rfl
  · have := hlines l hl
    simp [tooLong] at this
    omega
  · exact Nat.not_lt.mp hrest

/-- What is held between two uses: the beginning of a line that is not too long yet. -/
structure Sound (b : LineBuffer) : Prop where
  unfinished : newline ∉ b.held
  held_le : b.held.length ≤ b.limit

theorem sound_empty (limit : Nat) : (empty limit).Sound :=
  ⟨List.not_mem_nil, Nat.zero_le _⟩

theorem Sound.fits (hb : b.Sound) : Fits b.limit b.held :=
  fun _ hrun _ => hrun.length_le.trans hb.held_le

/-- One of the things that can be done with a buffer. -/
inductive Use where
  | push (bs : List UInt8)
  | finish

/-- The buffer afterwards. -/
def use (b : LineBuffer) : Use → LineBuffer
  | .push bs => (b.push bs).2
  | .finish => b.finish.2

theorem limit_use (b : LineBuffer) (u : Use) : (b.use u).limit = b.limit := by
  cases u with
  | finish => rfl
  | push bs =>
      simp only [use, push]
      split <;> rfl

theorem sound_use (b : LineBuffer) (u : Use) : (b.use u).Sound := by
  cases u with
  | finish => exact sound_empty b.limit
  | push bs =>
      by_cases h : Fits b.limit (b.held ++ bs)
      · simp only [use, push_of_fits h]
        exact ⟨newline_not_mem_remainder _,
          h _ (remainder_part _) (newline_not_mem_remainder _)⟩
      · simp only [use, push_of_not_fits h]
        exact sound_empty b.limit

theorem sound_uses (limit : Nat) (uses : List Use) :
    (uses.foldl use (empty limit)).limit = limit ∧ (uses.foldl use (empty limit)).Sound := by
  suffices h : ∀ b : LineBuffer, b.limit = limit → b.Sound →
      (uses.foldl use b).limit = limit ∧ (uses.foldl use b).Sound from
    h (empty limit) rfl (sound_empty limit)
  induction uses with
  | nil => exact fun b hl hb => ⟨hl, hb⟩
  | cons u uses ih => exact fun b hl _ => ih (b.use u) ((b.limit_use u).trans hl) (b.sound_use u)

/-- Reads are refused at the first of them that makes a line too long. -/
theorem pushAll_of_not_fits {reads : List (List UInt8)} (hb : b.Sound)
    (h : ¬ Fits b.limit (b.held ++ reads.flatten)) : (b.pushAll reads).1 = none := by
  induction reads generalizing b with
  | nil => exact absurd (by simpa using hb.fits) h
  | cons bs reads ih =>
      rw [pushAll]
      by_cases hfits : Fits b.limit (b.held ++ bs)
      · rw [List.flatten_cons, ← List.append_assoc, fits_append, not_and] at h
        have hnext := b.sound_use (.push bs)
        simp only [use, push_of_fits hfits] at hnext
        rw [push_of_fits hfits]
        simp [ih hnext (h hfits)]
      · rw [push_of_not_fits hfits]

theorem pushAll_empty {limit : Nat} {reads : List (List UInt8)} (h : Fits limit reads.flatten) :
    (empty limit).pushAll reads =
      (some ((lines reads.flatten).map fun l => lossy (l ++ [newline])),
        ⟨limit, remainder reads.flatten⟩) :=
  pushAll_of_fits (b := empty limit) List.not_mem_nil h

theorem toList_finish (b : LineBuffer) :
    b.finish.1.toList = if b.held = [] then [] else [lossy b.held] := by
  rw [finish]
  cases b.held <;> rfl

theorem finish_eq_none_iff (b : LineBuffer) : b.finish.1 = none ↔ b.held = [] := by
  rw [finish]
  cases b.held <;> simp

/-- Whatever is done with a buffer, it holds the beginning of a line that is not too long, and
nothing once a push has been refused or the bytes have ended. Bytes are refused, wherever they are
cut into reads, just if a line in them is too long; otherwise the lines and what is left in the end
are the text of all the bytes, cut after its newlines. -/
theorem pushAll_exact (limit : Nat) :
    (∀ uses : List Use, let b := uses.foldl use (empty limit)
      newline ∉ b.held ∧ b.held.length ≤ limit ∧
        (∀ bs, (b.push bs).1 = none → (b.push bs).2 = empty limit) ∧ b.finish.2 = empty limit) ∧
      ∀ reads : List (List UInt8), let bytes := reads.flatten
        (((empty limit).pushAll reads).1 = none ↔
          ∃ run, run <:+: bytes ∧ newline ∉ run ∧ limit < run.length) ∧
        ∀ ls b, (empty limit).pushAll reads = (some ls, b) →
          ls ++ b.finish.1.toList =
              (cutAfterNewlines (lossy bytes).toList).map String.ofList ∧
            (b.finish.1 = none ↔ bytes = [] ∨ bytes.getLast? = some newline) := by
  refine ⟨fun uses => ?_, fun reads => ?_⟩
  · obtain ⟨hlimit, hsound⟩ := sound_uses limit uses
    generalize uses.foldl use (empty limit) = b at hlimit hsound ⊢
    subst hlimit
    refine ⟨hsound.unfinished, hsound.held_le, fun bs hrefused => ?_, rfl⟩
    by_cases h : Fits b.limit (b.held ++ bs)
    · rw [push_of_fits h] at hrefused
      cases hrefused
    · rw [push_of_not_fits h]
      rfl
  · intro bytes
    by_cases h : Fits limit bytes
    · rw [pushAll_empty h]
      refine ⟨⟨nofun, fun hrun => absurd h (not_fits_iff.mpr hrun)⟩, fun ls b he => ?_⟩
      cases he
      exact ⟨by rw [toList_finish, cutAfterNewlines_lossy],
        (finish_eq_none_iff _).trans (remainder_eq_nil_iff bytes)⟩
    · have hnone := pushAll_of_not_fits (sound_empty limit) h
      refine ⟨⟨fun _ => not_fits_iff.mp h, fun _ => hnone⟩, fun ls b he => ?_⟩
      rw [he] at hnone
      cases hnone

theorem pushAll_exact_two :
    (empty 2).pushAll [bytes "a", bytes "b\nc"] = (some ["ab\n"], ⟨2, bytes "c"⟩) ∧
      ["ab\n"] ++ ["c"] = (cutAfterNewlines "ab\nc".toList).map String.ofList := by
  have hpush : (empty 2).pushAll [bytes "a", bytes "b\nc"] = (some ["ab\n"], ⟨2, bytes "c"⟩) := by
    decide
  exact ⟨hpush, (((pushAll_exact 2).2 [bytes "a", bytes "b\nc"]).2 _ _ hpush).1⟩

end LineBuffer

/-! ## Where reads are refused -/

theorem lines_join (bs : List UInt8) :
    (lines bs).flatMap (· ++ [newline]) ++ remainder bs = bs := by
  induction bs using line_induction with
  | rest bs h => rw [lines_of_not_mem h, remainder_of_not_mem h]; rfl
  | line as bs h ih =>
      rw [lines_append_newline, remainder_append_newline, List.splitOn_eq_singleton h,
        List.flatMap_append, List.append_assoc, ih]
      simp

theorem length_le_of_mem_lines {n : Nat} {bs l : List UInt8} (h : Fits n bs) (hl : l ∈ lines bs) :
    l.length ≤ n := by
  obtain ⟨hpart, hnot⟩ := mem_splitOn (List.mem_of_mem_dropLast hl)
  exact h l hpart hnot

/-- The lines that have been ended before the first one that is too long. -/
def linesBefore (limit : Nat) (bs : List UInt8) : List (List UInt8) :=
  (lines bs).takeWhile (·.length ≤ limit)

/-- The bytes of those lines. -/
def bytesBefore (limit : Nat) (bs : List UInt8) : List UInt8 :=
  (linesBefore limit bs).flatMap (· ++ [newline])

theorem bytesBefore_begins (limit : Nat) (bs : List UInt8) : bytesBefore limit bs <+: bs := by
  obtain ⟨later, hlater⟩ := List.takeWhile_prefix (l := lines bs) (·.length ≤ limit)
  refine ⟨later.flatMap (· ++ [newline]) ++ remainder bs, ?_⟩
  conv_rhs => rw [← lines_join bs, ← hlater, List.flatMap_append, List.append_assoc]
  rfl

theorem splitOn_bytesBefore (limit : Nat) (bs : List UInt8) :
    (bytesBefore limit bs).splitOn newline = linesBefore limit bs ++ [[]] :=
  splitOn_flatMap fun _ hl =>
    (mem_splitOn (List.mem_of_mem_dropLast ((List.takeWhile_prefix _).subset hl))).2

theorem fits_bytesBefore (limit : Nat) (bs : List UInt8) : Fits limit (bytesBefore limit bs) := by
  refine fits_of_splitOn fun l hl => ?_
  rw [splitOn_bytesBefore, List.mem_append, List.mem_singleton] at hl
  rcases hl with hl | rfl
  · simpa using List.all_eq_true.mp List.all_takeWhile l hl
  · exact Nat.zero_le _

@[simp] theorem lines_bytesBefore (limit : Nat) (bs : List UInt8) :
    lines (bytesBefore limit bs) = linesBefore limit bs := by
  rw [lines, splitOn_bytesBefore, List.dropLast_concat]

@[simp] theorem remainder_bytesBefore (limit : Nat) (bs : List UInt8) :
    remainder (bytesBefore limit bs) = [] := by
  simp [remainder, splitOn_bytesBefore]

/-- A beginning that fits has the first of those lines. -/
theorem lines_prefix_linesBefore {limit : Nat} {bs as : List UInt8} (h : Fits limit as)
    (has : as <+: bs) : lines as <+: linesBefore limit bs := by
  obtain ⟨more, rfl⟩ := has
  rw [linesBefore, lines_append, List.takeWhile_append_of_pos fun l hl => by
    simpa using length_le_of_mem_lines h hl]
  exact List.prefix_append ..

/-- Reads that do not fit begin with some that do and one that makes them not fit. -/
theorem exists_refused {limit : Nat} {reads : List (List UInt8)} (h : ¬ Fits limit reads.flatten) :
    ∃ good bad later, reads = good ++ bad :: later ∧ Fits limit good.flatten ∧
      ¬ Fits limit (good.flatten ++ bad) := by
  induction reads using List.reverseRecOn with
  | nil => exact absurd (LineBuffer.sound_empty limit).fits h
  | append_singleton reads last ih =>
      by_cases hreads : Fits limit reads.flatten
      · exact ⟨reads, last, [], rfl, hreads, by simpa using h⟩
      · obtain ⟨good, bad, later, rfl, hgood⟩ := ih hreads
        exact ⟨good, bad, later ++ [last], by simp, hgood⟩

/-- A beginning that fits and reaches behind those lines has all of them, and no others. -/
theorem lines_eq_linesBefore {limit : Nat} {bs as : List UInt8} (h : Fits limit as)
    (has : as <+: bs) (hle : (bytesBefore limit bs).length ≤ as.length) :
    lines as = linesBefore limit bs := by
  obtain ⟨more, rfl⟩ := List.prefix_of_prefix_length_le (bytesBefore_begins limit bs) has hle
  have hfirst := lines_prefix_linesBefore h has
  rw [lines_append, lines_bytesBefore] at hfirst ⊢
  exact hfirst.eq_of_length_le (by simp)

/-- So far a beginning must reach to have them all, and no farther can it reach and fit. -/
theorem length_bounds {limit : Nat} {bs as : List UInt8} (h : Fits limit as)
    (hlines : lines as = linesBefore limit bs) :
    (bytesBefore limit bs).length ≤ as.length ∧
      as.length ≤ (bytesBefore limit bs).length + limit := by
  have hjoin := congrArg List.length (lines_join as)
  have hrest := h _ (remainder_part as) (newline_not_mem_remainder as)
  rw [hlines, ← bytesBefore, List.length_append] at hjoin
  omega

/-- Between these bounds every beginning fits. -/
theorem fits_of_length_bounds {limit : Nat} {bs as : List UInt8} (has : as <+: bs)
    (hfrom : (bytesBefore limit bs).length ≤ as.length)
    (hto : as.length ≤ (bytesBefore limit bs).length + limit) : Fits limit as := by
  obtain ⟨more, rfl⟩ := List.prefix_of_prefix_length_le (bytesBefore_begins limit bs) has hfrom
  rw [fits_append, remainder_bytesBefore, List.nil_append]
  refine ⟨fits_bytesBefore limit bs, fun run hrun _ => hrun.length_le.trans ?_⟩
  rw [List.length_append] at hto
  omega

end Text

open Text (newline lossy linesBefore bytesBefore)

namespace StreamItem

theorem ofSegments_of_not_fits {bs : List UInt8} (h : ¬ Text.Fits maxLine bs)
    (later : List Segment) :
    ofSegments (.bytes bs :: later) = [.error (.stream "line too long")] := by
  rw [ofSegments, ofSegmentsAfter, Text.LineBuffer.push_of_not_fits h]

/-- Where a line is too long, the first read that makes it so is refused, and of the lines that have
been ended before it those are handed out that came with earlier reads. So all of them are just if
some reads end behind them and no farther in the line than is allowed. Then there is the error. -/
theorem ofSegments_overflow (limit : Nat) (reads : List (List UInt8))
    (h : ∃ run, run <:+: reads.flatten ∧ newline ∉ run ∧ limit < run.length) :
    ∃ good bad later handed b, reads = good ++ bad :: later ∧
      (Text.LineBuffer.empty limit).pushAll good = (some handed, b) ∧ (b.push bad).1 = none ∧
      handed <+: (linesBefore limit reads.flatten).map (fun l => lossy (l ++ [newline])) ∧
      (handed = (linesBefore limit reads.flatten).map (fun l => lossy (l ++ [newline])) ↔
        ∃ n, (bytesBefore limit reads.flatten).length ≤ (reads.take n).flatten.length ∧
          (reads.take n).flatten.length ≤ (bytesBefore limit reads.flatten).length + limit) ∧
      ∀ tail, ofSegmentsAfter (.empty limit) (reads.map .bytes ++ tail) =
        handed.filterMap ofLine? ++ [.error (.stream "line too long")] := by
  obtain ⟨good, bad, later, rfl, hgood, hbad⟩ := Text.exists_refused (Text.not_fits_iff.mpr h)
  have hpart : good.flatten <+: (good ++ bad :: later).flatten := by simp
  have hpush : Text.LineBuffer.push ⟨limit, Text.remainder good.flatten⟩ bad =
      (none, ⟨limit, []⟩) :=
    Text.LineBuffer.push_of_not_fits fun hfits => hbad (Text.fits_append.mpr ⟨hgood, hfits⟩)
  have hfirst := Text.lines_prefix_linesBefore hgood hpart
  refine ⟨good, bad, later, _, _, rfl, Text.LineBuffer.pushAll_empty hgood, by rw [hpush],
    hfirst.map _, ⟨fun hall => ?_, fun ⟨n, hfrom, hto⟩ => ?_⟩, fun tail => ?_⟩
  · have hlines := hfirst.eq_of_length (by simpa using congrArg List.length hall)
    refine ⟨good.length, ?_⟩
    rw [List.take_left]
    exact Text.length_bounds hgood hlines
  · -- reads that end there are accepted, so they are no more than those before the refusal
    have hn : n ≤ good.length := by
      by_contra hn
      have hfits := Text.fits_of_length_bounds (List.take_prefix n _).flatten hfrom hto
      have hread : good ++ [bad] <+: (good ++ bad :: later).take n :=
        List.prefix_take_iff.mpr ⟨by simp, by simp; omega⟩
      exact hbad (by simpa using hfits.part hread.flatten.isInfix)
    rw [List.take_append_of_le_length hn] at hfrom
    have hle := hfrom.trans (List.take_prefix n good).flatten.length_le
    exact congrArg _ (Text.lines_eq_linesBefore hgood hpart hle)
  · rw [List.map_append, List.append_assoc,
      ofSegmentsAfter_reads good _ (b := .empty limit) List.not_mem_nil hgood, List.map_cons,
      List.cons_append, ofSegmentsAfter]
    simp only [Text.LineBuffer.empty, List.nil_append, hpush]
    rfl

/-- A line is handed out if it has come with an earlier read. -/
theorem ofSegments_overflow_apart :
    ∃ good bad later handed b,
      [Text.bytes "ok\n", Text.bytes "123456789"] = good ++ bad :: later ∧
        (Text.LineBuffer.empty 8).pushAll good = (some handed, b) ∧ (b.push bad).1 = none ∧
        handed = ["ok\n"] := by
  obtain ⟨good, bad, later, handed, b, hreads, hgood, hbad, -, hall, -⟩ :=
    ofSegments_overflow 8 [Text.bytes "ok\n", Text.bytes "123456789"]
      ⟨Text.bytes "123456789", ⟨Text.bytes "ok\n", [], rfl⟩, by decide, by decide⟩
  refine ⟨good, bad, later, handed, b, hreads, hgood, hbad, (hall.mpr ⟨1, ?_⟩).trans ?_⟩ <;>
    decide +kernel

/-- But it is lost if it has come together with the line that is too long. -/
theorem not_ofSegments_overflow :
    (¬ ∀ (limit : Nat) (good : List (List UInt8)) (bad : List UInt8) (later : List (List UInt8))
        (handed : List String) (b : Text.LineBuffer),
        (Text.LineBuffer.empty limit).pushAll good = (some handed, b) → (b.push bad).1 = none →
          handed = (linesBefore limit (good ++ bad :: later).flatten).map
            (fun l => lossy (l ++ [newline]))) ∧
      ofLine? "\x7b\"done\":true\x7d\n" = some (.ok ⟨none, true⟩) ∧
      ofSegments [.bytes
          (Text.bytes "\x7b\"done\":true\x7d\n" ++ List.replicate (maxLine + 1) 120)] =
        [.error (.stream "line too long")] := by
  refine ⟨fun h => ?_, by decide +kernel, ?_⟩
  · have hlost := h 8 [] (Text.bytes "ok\n123456789") [] [] (.empty 8) rfl (by decide)
    exact absurd hlost (by decide +kernel)
  · have hlong : ¬ Text.Fits maxLine
        (Text.bytes "\x7b\"done\":true\x7d\n" ++ List.replicate (maxLine + 1) 120) := by
      intro h
      have hle := h (List.replicate (maxLine + 1) 120) (List.suffix_append _ _).isInfix
        (by simp [newline])
      rw [List.length_replicate] at hle
      omega
    exact ofSegments_of_not_fits hlong []

end StreamItem

end ChatAgent
