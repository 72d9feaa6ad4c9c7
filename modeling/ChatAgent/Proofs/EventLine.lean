import ChatAgent.Event
import ChatAgent.Proofs.ChunkLine

/-!
# Events there and back

What the client gets can be understood in one way only: the bytes are cut at the newlines into one
line for each event, and each line is read as the event it was written for, whatever texts the
events carry and wherever the transport cuts the bytes (`Event.read_stream`).
-/

namespace ChatAgent

open Json (toDocument Exact)

/-! ## Objects out of order -/

/-- An object is read with its fields in ascending order, whatever order they are written in. -/
theorem Json.Reader.json_object {n : Nat} {fields : List (String × Json)}
    (h : ∀ f ∈ fields, Plain n f.2) :
    json (n + 1) (toDocument (.object fields)) = some (.object (sortFields fields)) := by
  rw [toDocument, fieldDocuments_eq, json, fields_map fields fun f hf => json_toDocument (h f hf)]
  rfl

/-- White space behind a text does not change what it says. -/
theorem Json.Document.ofText?_line {j : Json} (h : Exact j) :
    ofText? (j.text ++ "\n") = some j.toDocument := by
  have hend : Token.scan [some '\n'] (tokens j).reverse = some (tokens j) := by
    unfold Token.scan
    split
    · rw [List.reverse_reverse]
    · contradiction
  have hscan := Token.Scans.of_exact h ['\n'] [] (by simp [Stops])
  have htokens : Token.ofText? (j.text ++ "\n") = some (tokens j) := by
    rw [Token.ofText?, String.toList_append, text, String.toList_ofList]
    exact hscan.trans (by rwa [List.append_nil])
  rw [ofText?, htokens, ← ofText?_text h, ofText?, Token.ofText?_text h]

theorem Json.readBytes?_bytes {α : Type} (r : Reader α) (s : String) :
    readBytes? r (Text.bytes s) = readText? r s := by
  rw [readBytes?, Document.ofBytes?, Token.ofBytes?, Text.bytes, Text.decode_encode]
  rfl

/-! ## One event -/

namespace Event

/-- The arguments of a call are written without floats, and do not nest too deep for a line. -/
def Plain : Event → Prop
  | toolCall _ _ arguments => Json.Plain 126 arguments
  | _ => True

variable {e : Event}

theorem plain_fields (h : e.Plain) :
    ∀ f ∈ ("type", Json.string e.kind) :: e.fields, Json.Plain 126 f.2 := by
  have htype : Json.Plain 126 (.string e.kind) := .string
  cases e with
  | content | error => simp [fields, Json.Plain.string]
  | toolCall =>
      have harguments : Json.Plain 126 _ := h
      simpa [fields, Json.Plain.string]
  | toolResult _ _ failure => cases failure <;> simp [fields, Json.present, Json.Plain.string]
  | done reason => cases reason <;> simp [fields, Json.present, Json.Plain.string]

theorem exact_toJson (h : e.Plain) : Exact e.toJson :=
  .object fun f hf => (plain_fields h f hf).exact

theorem kindOf?_toJson (e : Event) : kindOf? (toDocument e.toJson) = some e.kind := by
  simp [toJson, toDocument, Json.fieldDocuments, kindOf?, Json.Reader.string]

theorem nodup_fields (e : Event) : ("type" :: e.fields.map (·.1)).Nodup := by
  cases e with
  | toolResult _ _ failure => cases failure <;> simp [fields, Json.present]
  | done reason => cases reason <;> simp [fields, Json.present]
  | _ => simp [fields]

theorem given_toJson {names : List String}
    (h : ∀ name ∈ "type" :: e.fields.map (·.1), name ∈ names) :
    Json.Given.read names 127 (toDocument e.toJson) =
      some ⟨126, (("type", .string e.kind) :: e.fields).map fun f => (f.1, toDocument f.2)⟩ :=
  Json.Given.read_of_nodup names (("type", .string e.kind) :: e.fields) 126
    (fun _ hf => h _ (List.mem_map_of_mem hf)) e.nodup_fields

theorem readKind_toJson (h : e.Plain) : readKind e.kind 127 (toDocument e.toJson) = some e := by
  cases e with
  | content | error =>
      simp only [kind, readKind]
      rw [given_toJson (by simp [fields])]
      simp [fields, Json.Given.required, List.lookup_cons, toDocument, Json.Reader.string]
  | toolCall id name arguments =>
      have harguments : Json.Reader.json 126 (toDocument arguments) = some arguments :=
        Json.Reader.json_toDocument h
      simp only [kind, readKind]
      rw [given_toJson (by simp [fields])]
      simp [fields, Json.Given.required, List.lookup_cons, toDocument, Json.Reader.string,
        harguments]
  | toolResult id text failure =>
      simp only [kind, readKind]
      rw [given_toJson (by cases failure <;> simp [fields, Json.present])]
      cases failure <;>
        simp [fields, Json.present, Json.Given.required, Json.Given.optional, Json.Given.orElse,
          List.lookup_cons, toDocument, Json.Reader.optional, Json.Reader.string]
  | done reason =>
      simp only [kind, readKind]
      rw [given_toJson (by cases reason <;> simp [fields, Json.present])]
      rcases reason with _ | ⟨⟨⟩⟩ <;>
        simp [fields, Json.present, Json.Given.optional, Json.Given.orElse, List.lookup_cons,
          toDocument, Json.Reader.optional, DoneReason.read, DoneReason.name]

theorem read_toJson (h : e.Plain) : read 127 (toDocument e.toJson) = some e := by
  -- the whole object is kept before its kind is known: it takes one level more than the arguments
  have hjson : Json.Reader.json 127 (toDocument e.toJson) = some _ :=
    Json.Reader.json_object (plain_fields h)
  rw [read, hjson, kindOf?_toJson]
  exact readKind_toJson h

theorem readText?_text (h : e.Plain) : Json.readText? read e.toJson.text = some e := by
  rw [Json.readText?, Json.Document.ofText?_text (exact_toJson h), Option.bind_some]
  exact read_toJson h

theorem readText?_line (h : e.Plain) : Json.readText? read e.line = some e := by
  rw [Json.readText?, line, Json.Document.ofText?_line (exact_toJson h), Option.bind_some]
  exact read_toJson h

theorem newline_not_mem_text (h : e.Plain) : '\n' ∉ e.toJson.text.toList := by
  intro hmem
  rw [Json.text, String.toList_ofList] at hmem
  exact absurd (Json.visible_chars (exact_toJson h) _ hmem) (by decide)

theorem bytes_line (e : Event) :
    Text.bytes e.line = Text.bytes e.toJson.text ++ [Text.newline] := by
  rw [Text.bytes, line, String.toList_append, Text.encode_append]
  rfl

/-! ## Streams -/

/-- The bytes that a client gets. -/
def stream (es : List Event) : List UInt8 := es.flatMap fun e => Text.bytes e.line

theorem stream_eq_encodeLines (es : List Event) :
    stream es = StreamItem.encodeLines (es.map (·.toJson.text)) := by
  rw [stream, StreamItem.encodeLines, List.flatMap_map]
  simp only [bytes_line]

section Stream

variable {es : List Event} (h : ∀ e ∈ es, e.Plain)

include h

theorem newline_not_mem_texts : ∀ l ∈ es.map (·.toJson.text), '\n' ∉ l.toList := by
  intro l hl
  obtain ⟨e, he, rfl⟩ := List.mem_map.mp hl
  exact newline_not_mem_text (h e he)

theorem splitOn_stream :
    (stream es).splitOn Text.newline = es.map (fun e => Text.bytes e.toJson.text) ++ [[]] := by
  rw [stream_eq_encodeLines, StreamItem.splitOn_encodeLines (newline_not_mem_texts h),
    List.map_map, Function.comp_def]

theorem count_newline_stream : (stream es).count Text.newline = es.length := by
  induction es with
  | nil => rfl
  | cons e es ih =>
      have hfree : Text.newline ∉ Text.bytes e.toJson.text :=
        Text.newline_not_mem_bytes (newline_not_mem_text (h e List.mem_cons_self))
      have hrest : (stream es).count Text.newline = es.length :=
        ih fun f hf => h f (List.mem_cons_of_mem _ hf)
      rw [stream] at hrest ⊢
      rw [List.flatMap_cons, List.count_append, bytes_line, List.count_append,
        List.count_eq_zero.mpr hfree, hrest, List.count_singleton_self, List.length_cons]
      omega

/-- However the stream is cut into reads, the lines come back. -/
theorem pushAll_stream {limit : Nat} {reads : List (List UInt8)}
    (hreads : reads.flatten = stream es)
    (hlimit : ∀ e ∈ es, (Text.bytes e.toJson.text).length ≤ limit) :
    (Text.LineBuffer.empty limit).pushAll reads = (some (es.map line), .empty limit) := by
  have hfits : Text.Fits limit (stream es) := by
    rw [stream_eq_encodeLines]
    refine StreamItem.fits_encodeLines (newline_not_mem_texts h) ?_
    simpa using hlimit
  have hlines : Text.lines (stream es) = es.map fun e => Text.bytes e.toJson.text := by
    rw [Text.lines, splitOn_stream h, List.dropLast_concat]
  have hrest : Text.remainder (stream es) = [] := by
    simp [Text.remainder, splitOn_stream h]
  have hline (e : Event) :
      Text.lossy (Text.bytes e.toJson.text ++ [Text.newline]) = e.line := by
    rw [← bytes_line, Text.lossy_bytes]
  have hempty : Text.newline ∉ (Text.LineBuffer.empty limit).held := List.not_mem_nil
  have hpush := Text.LineBuffer.pushAll_of_fits hempty (by rwa [hreads])
  rw [hpush]
  simp [Text.LineBuffer.empty, hreads, hlines, hrest, hline]

end Stream

/-- The stream of some events is understood in one way. -/
theorem read_stream {es : List Event} (h : ∀ e ∈ es, e.Plain) :
    (∀ e ∈ es, ∃ cs, Text.bytes e.line = cs ++ [10] ∧ 10 ∉ cs) ∧
      (stream es).count 10 = es.length ∧
      (∃ ls, (stream es).splitOn 10 = ls ++ [[]] ∧ ls.length = es.length ∧
        ls.map (Json.readBytes? read) = es.map some) ∧
      ∀ limit reads, reads.flatten = stream es →
        (∀ e ∈ es, (Text.bytes e.line).length ≤ limit + 1) →
        (Text.LineBuffer.empty limit).pushAll reads = (some (es.map line), .empty limit) ∧
          (es.map line).map (Json.readText? read) = es.map some := by
  refine ⟨?_, count_newline_stream h, ⟨_, splitOn_stream h, by simp, ?_⟩, ?_⟩
  · intro e he
    exact ⟨_, bytes_line e, Text.newline_not_mem_bytes (newline_not_mem_text (h e he))⟩
  · rw [List.map_map, List.map_inj_left]
    intro e he
    exact (Json.readBytes?_bytes _ _).trans (readText?_text (h e he))
  · intro limit reads hreads hlimit
    refine ⟨pushAll_stream h hreads fun e he => ?_, ?_⟩
    · have := hlimit e he
      rw [bytes_line, List.length_append, List.length_singleton] at this
      omega
    · rw [List.map_map, List.map_inj_left]
      exact fun e he => readText?_line (h e he)

/-- A delta that looks like an event of its own, cut within a character. -/
theorem read_stream_cut :
    let es : List Event :=
      [.content "☃\n\x7b\"type\":\"done\"\x7d\n",
        .toolCall "call_0" "echo" (.object [("a", .array [.null])]),
        .toolResult "call_0" "" (some ""), .done none]
    (∀ e ∈ es, e.Plain) ∧ (∀ e ∈ es, (Text.bytes e.line).length ≤ 69 + 1) ∧
      (stream es).count 10 = 4 ∧
      (Text.LineBuffer.empty 69).pushAll [(stream es).take 28, [], (stream es).drop 28] =
        (some (es.map line), .empty 69) := by
  intro es
  have hplain : ∀ e ∈ es, e.Plain := by
    have harguments : Json.Plain 126 (.object [("a", .array [.null])]) :=
      .object (List.pairwise_singleton _ _) (by simpa using .array (by simpa using .null))
    simpa [es, Plain]
  have hlength : ∀ e ∈ es, (Text.bytes e.line).length ≤ 69 + 1 := by decide +kernel
  obtain ⟨-, hcount, -, hbuffer⟩ := read_stream hplain
  exact ⟨hplain, hlength, hcount, (hbuffer 69 _ (by simp) hlength).1⟩

end Event

end ChatAgent
