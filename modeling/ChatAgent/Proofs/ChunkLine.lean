import ChatAgent.Proofs.Framing
import ChatAgent.Proofs.JsonGrammar
import ChatAgent.Proofs.RoundTrip
import ChatAgent.Proofs.Trimming
import ChatAgent.Proofs.Utf8

/-!
# Chunks there and back

Chunks that are written one a line are read again, whatever lines that say nothing stand between
them and wherever the bytes are cut (`StreamItem.ofSegments_of_written`).
-/

namespace ChatAgent

open Json (Rereads)
open Json.Given (optional_bind orElse_bind)

/-! ## One chunk -/

/-- The arguments of the calls are written without floats, and do not nest too deep for a line. -/
def Chunk.Plain (c : Chunk) : Prop :=
  ∀ m ∈ c.message, ∀ call ∈ m.calls, ∀ f ∈ call.function, Json.Plain 122 f.arguments

/-- A line has room for an error, which a chunk leaves out. -/
theorem StreamLine.rereads {c : Chunk} (h : ∀ m ∈ c.message, m.Regular) :
    Rereads read c.toJson ⟨c, none⟩ := by
  have hmessage := ChunkMessage.rereads_orNull h
  refine .record ["message", "done", "error"] (fun _ _ => rfl)
    (List.prefix_append _ ["error"]).sublist (by decide) ?_ fun n hn => ?_
  · simpa using ⟨hmessage.exact, .bool⟩
  · rw [Json.Given.optional, orElse_bind hn rfl hmessage, orElse_bind hn rfl .bool,
      optional_bind hn none rfl (fun _ _ => .string) fun _ => Json.noConfusion]
    rfl

namespace Chunk.Plain

variable {c : Chunk} (h : c.Plain)

include h

theorem regular : ∀ m ∈ c.message, m.Regular :=
  fun m hm call hcall f hf => ⟨122, h m hm call hcall f hf⟩

theorem nesting_toJson : c.toJson.nesting ≤ 127 := by
  have hcall : ∀ m ∈ c.message, ∀ call ∈ m.calls, call.toJson.nesting ≤ 124 := by
    intro m hm call hcall
    refine Json.nesting_object_le.mpr ?_
    rw [List.forall_mem_singleton]
    refine Json.nesting_orNull_le fun f hf => Json.nesting_object_le.mpr ?_
    simpa [Json.nesting] using (h m hm call hcall f hf).nesting_le
  have hmessage : ∀ m ∈ c.message, m.toJson.nesting ≤ 126 := by
    intro m hm
    refine Json.nesting_object_le.mpr ?_
    simp only [List.forall_mem_cons]
    refine ⟨Nat.zero_le _, Json.nesting_orNull_le fun _ _ => Nat.zero_le _,
      Json.nesting_orNull_le fun cs hcs => Json.nesting_array_le.mpr ?_, List.forall_mem_nil _⟩
    intro j hj
    obtain ⟨call, hmem, rfl⟩ := List.mem_map.mp hj
    exact hcall m hm call (by rwa [ChunkMessage.calls, Option.mem_def.mp hcs, Option.getD_some])
  refine Json.nesting_object_le.mpr ?_
  simpa [Json.nesting] using Json.nesting_orNull_le hmessage

theorem readText?_toJson : Json.readText? StreamLine.read c.toJson.text = some ⟨c, none⟩ :=
  (StreamLine.rereads h.regular).readText? h.nesting_toJson

end Chunk.Plain

theorem Json.fieldChars_ends (fs : List (String × Json)) : ∃ cs, fieldChars fs = cs ++ ['}'] := by
  induction fs with
  | nil => exact ⟨[], rfl⟩
  | cons f fs ih =>
      obtain ⟨cs, hcs⟩ := ih
      exact ⟨',' :: (stringChars f.1 ++ ':' :: (chars f.2 ++ cs)), by simp [fieldChars, hcs]⟩

theorem Json.object_ends (f : String × Json) (fs : List (String × Json)) :
    ∃ cs, (Json.object (f :: fs)).text.toList = '{' :: (cs ++ ['}']) := by
  obtain ⟨cs, hcs⟩ := fieldChars_ends fs
  exact ⟨stringChars f.1 ++ ':' :: (chars f.2 ++ cs), by simp [text, chars, hcs]⟩

theorem Json.bytes_text (j : Json) : Text.bytes j.text = Text.encode j.chars := by
  rw [Text.bytes, text, String.toList_ofList]

theorem Chunk.exact_toJson {c : Chunk} (h : c.Plain) : Json.Exact c.toJson :=
  (Chunk.rereads h.regular).exact

/-! ## Lines -/

namespace StreamItem

theorem ofLine?_append_newline (line : String) : ofLine? (line ++ "\n") = ofLine? line := by
  rw [ofLine?, ofLine?, Text.trim_append rfl]

theorem ofLine?_blank {line : String} (h : Text.isBlankText line) : ofLine? line = none := by
  rw [ofLine?, Text.trim_eq_empty.mpr h]
  rfl

theorem ofLine?_not_isText {line : String} (h : ¬ Json.IsText (Text.trim line).toList) :
    ofLine? line = none := by
  have hnone : Json.Document.ofText? (Text.trim line) = none := by
    cases hd : Json.Document.ofText? (Text.trim line) with
    | none => rfl
    | some d => exact absurd (Json.Document.isText_of_ofText? hd) h
  simp [ofLine?, Json.readText?, hnone]

/-- A chunk is read again from its line. -/
theorem ofLine?_chunk {c : Chunk} (h : c.Plain) : ofLine? c.toJson.text = some (.ok c) := by
  obtain ⟨cs, hcs⟩ : ∃ cs, c.toJson.text.toList = '{' :: (cs ++ ['}']) := Json.object_ends _ _
  have htrim : Text.trim c.toJson.text = c.toJson.text := Text.trim_of_ends rfl rfl hcs
  have hne : c.toJson.text.isEmpty = false := by
    rw [Bool.eq_false_iff]
    intro hempty
    rw [String.isEmpty_iff.mp hempty] at hcs
    cases hcs
  rw [ofLine?, htrim]
  simp [hne, h.readText?_toJson]

theorem ofLines_map_bytes (ls : List String) :
    ofLines (ls.map Text.bytes) = ls.filterMap ofLine? := by
  have hline (l : String) :
      ofLine? (Text.lossy (Text.bytes l ++ [Text.newline])) = ofLine? l := by
    have hbytes : Text.bytes l ++ [Text.newline] = Text.bytes (l ++ "\n") := by
      rw [Text.bytes, Text.bytes, String.toList_append, Text.encode_append]
      rfl
    rw [hbytes, Text.lossy_bytes, ofLine?_append_newline]
  simp only [ofLines, List.map_map, List.filterMap_map, Function.comp_def, hline]

/-- Lines of a text, each ended by a newline. -/
def encodeLines (ls : List String) : List UInt8 :=
  ls.flatMap fun l => Text.bytes l ++ [Text.newline]

section Lines

variable {ls : List String} (hn : ∀ l ∈ ls, '\n' ∉ l.toList)

include hn

theorem splitOn_encodeLines :
    (encodeLines ls).splitOn Text.newline = ls.map Text.bytes ++ [[]] := by
  have hnot : ∀ l ∈ ls.map Text.bytes, Text.newline ∉ l := by
    intro l hl
    obtain ⟨s, hs, rfl⟩ := List.mem_map.mp hl
    exact Text.newline_not_mem_bytes (hn s hs)
  rw [← Text.splitOn_flatMap hnot, List.flatMap_map]
  rfl

theorem fits_encodeLines {n : Nat} (hl : ∀ l ∈ ls, (Text.bytes l).length ≤ n) :
    Text.Fits n (encodeLines ls) := by
  refine Text.fits_of_splitOn fun l hmem => ?_
  rw [splitOn_encodeLines hn, List.mem_append, List.mem_map, List.mem_singleton] at hmem
  rcases hmem with ⟨s, hs, rfl⟩ | rfl
  · exact hl s hs
  · exact Nat.zero_le _

variable (hl : ∀ l ∈ ls, (Text.bytes l).length ≤ maxLine)

include hl

/-- The last newline may be missing. -/
theorem ofSegments_encodeLines {reads : List (List UInt8)}
    (hreads : reads.flatten = encodeLines ls ∨ reads.flatten ++ [Text.newline] = encodeLines ls) :
    ofSegments (reads.map .bytes) = ls.filterMap ofLine? := by
  have hsplit := splitOn_encodeLines hn
  have hfits := fits_encodeLines hn hl
  rcases hreads with he | he
  · have hlines : Text.lines (encodeLines ls) = ls.map Text.bytes := by
      rw [Text.lines, hsplit, List.dropLast_concat]
    have hrest : Text.remainder (encodeLines ls) = [] := by simp [Text.remainder, hsplit]
    rw [ofSegments_clean reads (he ▸ hfits), he, hlines, hrest, if_pos rfl, List.append_nil,
      ofLines_map_bytes]
  · -- The last line is what follows the last newline.
    have hends : reads.flatten.splitOn Text.newline = ls.map Text.bytes := by
      rw [← he, List.splitOn_append_cons_self] at hsplit
      exact List.append_cancel_right hsplit
    rw [ofSegments_clean reads (hfits.part ⟨[], [Text.newline], by rw [← he, List.nil_append]⟩)]
    rcases List.eq_nil_or_concat' ls with rfl | ⟨init, last, rfl⟩
    · exact absurd hends (List.splitOn_ne_nil _ _)
    · have hlines : Text.lines reads.flatten = init.map Text.bytes := by
        rw [Text.lines, hends, List.map_append, List.map_singleton, List.dropLast_concat]
      have hrest : Text.remainder reads.flatten = Text.bytes last := by
        simp [Text.remainder, hends]
      rw [hlines, hrest, ofLines_map_bytes, Text.lossy_bytes, List.filterMap_append]
      refine congrArg (init.filterMap ofLine? ++ ·) ?_
      split
      · rename_i hnil
        have hlast : last = "" := by
          rw [← Text.lossy_bytes last, hnil]
          rfl
        rw [hlast]
        rfl
      · cases hitem : ofLine? last <;> simp [hitem]

/-- Where the transport breaks behind a newline, nothing is lost. -/
theorem ofSegments_encodeLines_broken {reads : List (List UInt8)}
    (hreads : reads.flatten = encodeLines ls) (reason : String) :
    ofSegments (reads.map .bytes ++ [.broken reason]) =
      ls.filterMap ofLine? ++ [.error (.stream reason)] := by
  have hlines : Text.lines (encodeLines ls) = ls.map Text.bytes := by
    rw [Text.lines, splitOn_encodeLines hn, List.dropLast_concat]
  rw [ofSegments_reads reads _ (hreads ▸ fits_encodeLines hn hl), hreads, hlines,
    ofLines_map_bytes]
  rfl

end Lines

end StreamItem

/-! ## Written chunks -/

/-- A line that says nothing: it is blank, or without the white space at its ends it is not JSON. -/
def Filler (line : String) : Prop :=
  Text.isBlankText line ∨ ¬ Json.IsText (Text.trim line).toList

/-- The lines of some chunks, with others between them. -/
inductive Written (filler : String → Prop) : List Chunk → List String → Prop
  | nil : Written filler [] []
  | chunk {c cs ls} : Written filler cs ls → Written filler (c :: cs) (c.toJson.text :: ls)
  | filler {l cs ls} (h : filler l) (hn : '\n' ∉ l.toList) :
      Written filler cs ls → Written filler cs (l :: ls)

namespace Written

variable {cs : List Chunk} {ls : List String}

theorem newline_not_mem {filler : String → Prop} (h : Written filler cs ls)
    (hcs : ∀ c ∈ cs, c.Plain) : ∀ l ∈ ls, '\n' ∉ l.toList := by
  induction h with
  | nil => nofun
  | @chunk c cs ls _ ih =>
      rintro l (_ | ⟨_, hl⟩)
      · intro hmem
        have hvisible := Json.visible_chars (Chunk.exact_toJson (hcs c List.mem_cons_self)) '\n'
        rw [Json.text, String.toList_ofList] at hmem
        exact absurd (hvisible hmem) (by decide)
      · exact ih (fun d hd => hcs d (List.mem_cons_of_mem _ hd)) l hl
  | filler _ hn _ ih =>
      rintro l (_ | ⟨_, hl⟩)
      · exact hn
      · exact ih hcs l hl

theorem filterMap_ofLine? (h : Written Filler cs ls) (hcs : ∀ c ∈ cs, c.Plain) :
    ls.filterMap StreamItem.ofLine? = cs.map .ok := by
  induction h with
  | nil => rfl
  | @chunk c cs ls _ ih =>
      rw [List.filterMap_cons, StreamItem.ofLine?_chunk (hcs c List.mem_cons_self),
        ih fun d hd => hcs d (List.mem_cons_of_mem _ hd)]
      rfl
  | filler h _ _ ih =>
      have hnone := h.elim StreamItem.ofLine?_blank StreamItem.ofLine?_not_isText
      rw [List.filterMap_cons, hnone, ih hcs]

end Written

namespace StreamItem

/-- Chunks that are written one a line are read again, wherever the bytes are cut and whether or
not the last line is ended. -/
theorem ofSegments_of_written {cs : List Chunk} {ls : List String} {reads : List (List UInt8)}
    (hcs : ∀ c ∈ cs, c.Plain) (hls : Written Filler cs ls)
    (hlength : ∀ l ∈ ls, (Text.bytes l).length ≤ 1024 * 1024)
    (hreads : reads.flatten = encodeLines ls ∨ reads.flatten ++ [10] = encodeLines ls) :
    ofSegments (reads.map .bytes) = cs.map .ok := by
  rw [ofSegments_encodeLines (hls.newline_not_mem hcs) hlength hreads, hls.filterMap_ofLine? hcs]

theorem ofSegments_of_written_cut :
    ofSegments ([Text.bytes "\u00a0\n\x7b\"message\":\x7b\"role\":\"assistant\",\"content\":\"",
          [0xe2, 0x98], [], [0x83], Text.bytes "\",\"tool_calls\":null\x7d,\"done\":false\x7d\n☃\n",
          Text.bytes "\x7b\"message\":null,\"done\":true\x7d"].map .bytes) =
      [.ok (.content "☃"), .ok ⟨none, true⟩] := by
  have hfiller : ¬ Json.IsText (Text.trim "☃").toList := Json.not_isText_cons (by decide) _
  have hwritten : Written Filler [.content "☃", ⟨none, true⟩]
      ["\u00a0", (Chunk.content "☃").toJson.text, "☃", (Chunk.mk none true).toJson.text] :=
    .filler (.inl (by decide)) (by decide)
      (.chunk (.filler (.inr hfiller) (by decide) (.chunk .nil)))
  refine ofSegments_of_written ?_ hwritten ?_ (.inr (by decide +kernel))
  · simp [Chunk.Plain, Chunk.content, ChunkMessage.text, ChunkMessage.calls]
  · simp only [List.forall_mem_cons, Json.bytes_text]
    decide +kernel

/-- A line is trimmed before it is read, so one that is not JSON may still be a chunk: white space
in JSON is not all white space. -/
theorem not_ofSegments_of_written :
    ¬ ∀ (cs : List Chunk) (ls : List String) (reads : List (List UInt8)), (∀ c ∈ cs, c.Plain) →
      Written (fun l => Text.isBlankText l ∨ ¬ Json.IsText l.toList) cs ls →
      (∀ l ∈ ls, (Text.bytes l).length ≤ 1024 * 1024) →
      (reads.flatten = encodeLines ls ∨ reads.flatten ++ [10] = encodeLines ls) →
      ofSegments (reads.map .bytes) = cs.map .ok := by
  intro h
  have hfiller : ¬ Json.IsText "\u00a0\x7b\"done\":true\x7d".toList :=
    Json.not_isText_cons (by decide) _
  have hnone := h [] ["\u00a0\x7b\"done\":true\x7d"]
    [Text.bytes "\u00a0\x7b\"done\":true\x7d\n"] nofun (.filler (.inr hfiller) (by decide) .nil)
    (by decide) (.inl (by decide))
  exact absurd hnone (by decide +kernel)

end StreamItem

end ChatAgent
