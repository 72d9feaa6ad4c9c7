import ChatAgent.Backend.Remote
import ChatAgent.Proofs.ChunkLine
import ChatAgent.Proofs.Course
import ChatAgent.Proofs.Overflow

/-!
# Turns over the wire

`RemoteBackend.Encodes` says which answers of a peer stand for which turn. A run cannot tell a
backend that is reached over HTTP from one that has the same turns written down
(`Agent.follow_through`).
-/

namespace ChatAgent

/-! ## Lines that report an error -/

theorem StreamLine.read_error (n : Nat) (reason : String) :
    read (n + 1) (Json.toDocument (.object [("error", .string reason)])) =
      some ⟨⟨none, false⟩, some reason⟩ := by
  rw [read, Json.Given.read_of_nodup _ _ _ (by simp) (by simp)]
  simp [Json.Given.optional, Json.Given.orElse, List.lookup_cons, Json.toDocument,
    Json.Reader.optional, Json.Reader.string]

namespace StreamItem

/-- A line is an object with an error and nothing else. -/
def LineReports (line reason : String) : Prop :=
  Json.Document.ofText? (Text.trim line) =
    some (Json.toDocument (.object [("error", .string reason)]))

/-- An error may be written like a chunk. -/
theorem lineReports_text (reason : String) :
    LineReports (Json.object [("error", .string reason)]).text reason := by
  obtain ⟨cs, hcs⟩ := Json.object_ends ("error", .string reason) []
  rw [LineReports, Text.trim_of_ends rfl rfl hcs]
  refine Json.Document.ofText?_text (.object ?_)
  simpa using Json.Exact.string

theorem LineReports.ofLine? {line reason : String} (h : LineReports line reason) :
    ofLine? line = some (.error (.stream reason)) := by
  have hne : (Text.trim line).isEmpty = false := by
    rw [Bool.eq_false_iff]
    intro hempty
    obtain ⟨c, rest, hbegins, -⟩ := (Json.Document.isText_of_ofText? h).begins
    rw [String.isEmpty_iff.mp hempty] at hbegins
    cases hbegins
  have hread : Json.readText? StreamLine.read (Text.trim line) =
      some ⟨⟨none, false⟩, some reason⟩ := by
    rw [Json.readText?, h, Option.bind_some]
    exact StreamLine.read_error 126 reason
  rw [StreamItem.ofLine?]
  simp [hne, hread]

end StreamItem

/-! ## Answers of a peer -/

/-- A line is not too long. -/
def Short (line : String) : Prop := (Text.bytes line).length ≤ 1024 * 1024

/-- Lines that convey chunks. None of them is too long. -/
structure Conveys (filler : String → Prop) (ls : List String) (cs : List Chunk) : Prop where
  plain : ∀ c ∈ cs, c.Plain
  written : Written filler cs ls
  short : ∀ l ∈ ls, Short l

namespace Conveys

variable {ls : List String} {cs : List Chunk}

theorem newline_not_mem (h : Conveys Filler ls cs) : ∀ l ∈ ls, '\n' ∉ l.toList :=
  h.written.newline_not_mem h.plain

theorem filterMap_ofLine? (h : Conveys Filler ls cs) :
    ls.filterMap StreamItem.ofLine? = cs.map .ok :=
  h.written.filterMap_ofLine? h.plain

end Conveys

namespace RemoteBackend

open StreamItem (encodeLines LineReports)

/-- What comes of a call stands for a turn, when the network delivers it with `t`. Lines without a
chunk are fillers, and a line that reports an error is a report. -/
inductive Encodes (filler report : String → Prop) (t : Http.Transport) :
    Http.Contact → Turn → Prop
  /-- The last newline may be missing. -/
  | chunks {r ls cs} (success : Http.isSuccess r.status) (whole : r.ending = .whole)
      (conveys : Conveys filler ls cs)
      (body : r.body = encodeLines ls ∨ r.body ++ [10] = encodeLines ls) :
      Encodes filler report t (.response r) (.chunks cs)
  /-- The last newline is there, for a line that is not ended would be lost. -/
  | breaks {r ls cs} (success : Http.isSuccess r.status) (broken : r.ending = .broken)
      (conveys : Conveys filler ls cs) (body : r.body = encodeLines ls) :
      Encodes filler report t (.response r) (.breaksAfter cs (t.broken r))
  | reports {r ls cs line reason} (success : Http.isSuccess r.status) (whole : r.ending = .whole)
      (conveys : Conveys filler ls cs) (reports : LineReports line reason)
      (hn : '\n' ∉ line.toList) (admitted : report line)
      (body : r.body = encodeLines (ls ++ [line]) ∨ r.body ++ [10] = encodeLines (ls ++ [line])) :
      Encodes filler report t (.response r) (.breaksAfter cs reason)
  | status {r answer} (failure : 400 ≤ r.status ∧ r.status < 600) (whole : r.ending = .whole)
      (body : r.body = Text.bytes answer) (visible : ¬ Text.isBlankText answer) :
      Encodes filler report t (.response r) (.status answer)
  | unavailable {reason} : Encodes filler report t (.failed reason) (.unavailable reason)
  | silent : Encodes filler report t .silence .silent

/-- A response with a body arrives as it was sent, if the address of the backend is one. -/
theorem place_responds {b : RemoteBackend} {r : Http.Response}
    (hurl : (Http.Url.ofText? b.chat).isSome) (hbody : Http.hasNoBody r.status = false)
    (q : BackendRequest) : ((b.call q).place (.responds r)).1 = .response r := by
  obtain ⟨url, hurl⟩ := Option.isSome_iff_exists.mp hurl
  simp [call, Http.Call.postJson, Http.Call.place, Http.Call.received, hurl, hbody]

section Responses

variable {t : Http.Transport} {r : Http.Response}

theorem turn_of_whole (success : Http.isSuccess r.status) (whole : r.ending = .whole) :
    turn t (.response r) =
      .streamed (StreamItem.ofSegments ((t.pieces r).map .bytes)) false := by
  simp [turn, turnOfResponse, segments, success, whole]

theorem turn_of_broken (success : Http.isSuccess r.status) (broken : r.ending = .broken) :
    turn t (.response r) =
      .streamed
        (StreamItem.ofSegments ((t.pieces r).map .bytes ++ [.broken (t.broken r)])) false := by
  simp [turn, turnOfResponse, segments, success, broken]

theorem turn_of_status {answer : String} (failure : 400 ≤ r.status) (whole : r.ending = .whole)
    (body : r.body = Text.bytes answer) (visible : ¬ Text.isBlankText answer) :
    turn t (.response r) = .status answer := by
  have hfailure : Http.isSuccess r.status = false := by
    simp only [Http.isSuccess, Bool.and_eq_false_iff, decide_eq_false_iff_not]
    omega
  simp [turn, turnOfResponse, refusal, hfailure, whole, body, visible]

/-- The turn that an answer stands for is the one that comes of it. -/
theorem Encodes.turn_eq {contact : Http.Contact} {answer : Turn}
    (h : Encodes Filler Short t contact answer) : turn t contact = answer := by
  cases h with
  | @chunks r ls cs success whole conveys body =>
      rw [← t.flatten_pieces r] at body
      rw [turn_of_whole success whole,
        StreamItem.ofSegments_encodeLines conveys.newline_not_mem conveys.short body,
        conveys.filterMap_ofLine?]
      rfl
  | @breaks r ls cs success broken conveys body =>
      rw [← t.flatten_pieces r] at body
      rw [turn_of_broken success broken,
        StreamItem.ofSegments_encodeLines_broken conveys.newline_not_mem conveys.short body,
        conveys.filterMap_ofLine?]
      rfl
  | @reports r ls cs line reason success whole conveys reports hn short body =>
      rw [← t.flatten_pieces r] at body
      have hns : ∀ l ∈ ls ++ [line], '\n' ∉ l.toList := by
        simpa [or_imp, forall_and] using ⟨conveys.newline_not_mem, hn⟩
      have hshort : ∀ l ∈ ls ++ [line], Short l := by
        simpa [or_imp, forall_and] using ⟨conveys.short, short⟩
      rw [turn_of_whole success whole, StreamItem.ofSegments_encodeLines hns hshort body,
        List.filterMap_append, conveys.filterMap_ofLine?]
      simp [reports.ofLine?, Turn.breaksAfter]
  | status failure whole body visible => exact turn_of_status failure.1 whole body visible
  | unavailable => rfl
  | silent => rfl

end Responses

end RemoteBackend

/-! ## A peer that breaks off -/

namespace Http.Response

/-- It asks for the echo, behind a line that says nothing. -/
def echoing : Response where
  status := 200
  headers := []
  body := StreamItem.encodeLines ["☃", (Chunk.calls [.ofFunction "echo" .empty]).toJson.text]
  ending := .whole

/-- It breaks off behind a piece of text. -/
def faltering : Response where
  status := 200
  headers := []
  body := StreamItem.encodeLines [(Chunk.content "Done.").toJson.text]
  ending := .broken

end Http.Response

def Http.Peer.faltering : Nat → Http.Peer
  | 0 => .responds .echoing
  | _ + 1 => .responds .faltering

namespace RemoteBackend

def usual : RemoteBackend := ofUrl defaultUrl

theorem isSome_url_usual : (Http.Url.ofText? usual.chat).isSome := by decide +kernel

theorem encodes_echoing :
    Encodes Filler Short .usual (.response .echoing) (.chunks [.calls [.ofFunction "echo" .empty]]) := by
  have hplain : ∀ c ∈ [Chunk.calls [.ofFunction "echo" .empty]], c.Plain := by
    have hempty : Json.Plain 122 .empty := .object .nil nofun
    simpa [Chunk.Plain, Chunk.calls, ChunkMessage.asking, ChunkMessage.calls, RawCall.ofFunction]
  have hwritten : Written Filler [.calls [.ofFunction "echo" .empty]]
      ["☃", (Chunk.calls [.ofFunction "echo" .empty]).toJson.text] :=
    .filler (.inr (Json.not_isText_cons (c := '☃') (by decide) [])) (by decide) (.chunk .nil)
  exact .chunks rfl rfl ⟨hplain, hwritten, by simp [Short, Json.bytes_text]; decide +kernel⟩ (.inl rfl)

theorem encodes_faltering :
    Encodes Filler Short .usual (.response .faltering)
      (.breaksAfter [.content "Done."] Http.badBody) := by
  have hplain : ∀ c ∈ [Chunk.content "Done."], c.Plain := by
    simp [Chunk.Plain, Chunk.content, ChunkMessage.text, ChunkMessage.calls]
  exact .breaks rfl rfl ⟨hplain, .chunk .nil, by simp [Short, Json.bytes_text]; decide +kernel⟩ rfl

end RemoteBackend

/-! ## An error that is too long -/

/-- Bodies arrive in one piece. -/
def Http.Transport.direct : Http.Transport where
  pieces r := [r.body]
  flatten_pieces r := List.append_nil r.body
  broken _ := Http.badBody

/-- It reports an error and nothing else. -/
def Http.Response.reporting (reason : String) : Http.Response where
  status := 200
  headers := []
  body := StreamItem.encodeLines [(Json.object [("error", .string reason)]).text]
  ending := .whole

namespace RemoteBackend

theorem newline_not_mem_report (reason : String) :
    '\n' ∉ (Json.object [("error", .string reason)]).text.toList := by
  rw [Json.text, String.toList_ofList]
  intro h
  have hvisible := Json.visible_chars (.object (by simpa using Json.Exact.string)) _ h
  exact absurd hvisible (by decide)

theorem body_reporting (reason : String) : (Http.Response.reporting reason).body =
    Text.bytes (Json.object [("error", .string reason)]).text ++ [Text.newline] := by
  rw [Http.Response.reporting, StreamItem.encodeLines, List.flatMap_singleton]

theorem encodes_reporting (reason : String) :
    Encodes Filler (fun _ => True) .direct (.response (.reporting reason))
      (.breaksAfter [] reason) :=
  .reports rfl rfl ⟨nofun, .nil, nofun⟩ (StreamItem.lineReports_text reason)
    (newline_not_mem_report reason) trivial
    (.inl (by rw [Http.Response.reporting, List.nil_append]))

theorem length_report (reason : String) : reason.toList.length <
    (Text.bytes (Json.object [("error", .string reason)]).text).length := by
  have hescape := Text.length_le_flatMap (f := Json.escape) (fun c => ?_) reason.toList
  · refine Nat.lt_of_lt_of_le ?_ (Text.length_le_bytes _)
    simp only [Json.text, String.toList_ofList, Json.chars, Json.fieldChars, Json.stringChars,
      List.length_cons, List.length_append]
    omega
  · unfold Json.escape
    split <;> simp
    split <;> simp

/-- What is told is that the line is too long. -/
theorem through_reporting {reason : String} (h : 1024 * 1024 ≤ reason.toList.length)
    (b : RemoteBackend) :
    b.through (fun _ => .direct) (fun _ _ => .response (.reporting reason)) =
      fun _ _ => .streamed [.error (.stream "line too long")] false := by
  have hlong : ¬ Text.Fits StreamItem.maxLine (Http.Response.reporting reason).body := by
    rw [body_reporting]
    intro hfits
    have hle := hfits _ (List.prefix_append _ _).isInfix
      (Text.newline_not_mem_bytes (newline_not_mem_report reason))
    have hlength := length_report reason
    have hmax : StreamItem.maxLine = 1024 * 1024 := rfl
    omega
  funext n q
  rw [through, turn_of_whole rfl rfl, ← StreamItem.ofSegments_of_not_fits hlong []]
  rfl

end RemoteBackend

/-! ## Runs -/

namespace Agent

theorem run_congr {a : Agent} {backend : Backend}
    (h : ∀ n < a.config.maxIterations, ∀ q, backend n q = a.backend n q) (r : ChatRequest) :
    ({ a with backend := backend } : Agent).run r = a.run r :=
  run_agree (fun n hn q => congrArg (turn q) (h n hn q)) r

/-- A run goes the same over HTTP and by the script, whoever follows it: the same events are
taken, the same requests are made, the tools take the same steps and it ends alike. -/
theorem follow_through (config : AgentConfig) (b : RemoteBackend) (transport : Nat → Http.Transport)
    (contact : Nat → Http.Call → Http.Contact) (turns : List Turn) (after : Option Turn)
    (registry : Registry) (request : ChatRequest) (c : Client)
    (hcap : config.maxIterations ≤ turns.length)
    (hturns : ∀ i (hi : i < turns.length) q,
      RemoteBackend.Encodes Filler Short (transport i) (contact i (b.call q)) turns[i]) :
    ((ofRegistry config (b.through transport contact) registry).run request).follow c .empty =
      ((ofRegistry config (.scripted turns after) registry).run request).follow c .empty := by
  have hagree (n : Nat) (hn : n < config.maxIterations) (q : BackendRequest) :
      b.through transport contact n q = Backend.scripted turns after n q := by
    have hi : n < turns.length := by omega
    rw [RemoteBackend.through, (hturns n hi q).turn_eq, Backend.scripted,
      List.getElem?_eq_getElem hi]
  exact congrArg (·.follow c .empty)
    (run_congr (a := ofRegistry config (.scripted turns after) registry) hagree request)

theorem follow_through_broken :
    let backend := RemoteBackend.usual.toBackend Http.Peer.faltering
    let run := (ofRegistry ⟨"Be brief.", 2, .sequential⟩ backend .echoing).run .hello
    (run.follow .patient .empty).1.events =
        [.toolCall "call_0" "echo" .empty, .toolResult "call_0" "" none, .content "Done.",
          .error "backend stream error: error decoding response body", .done none] ∧
      (run.follow .patient .empty).2 = .failed (.stream "error decoding response body") := by
  intro backend run
  have hurl := RemoteBackend.isSome_url_usual
  have hrun : run.follow .patient .empty = _ :=
    follow_through _ .usual (fun _ => .usual) (fun n c => (c.place (.faltering n)).1)
      [.chunks [.calls [.ofFunction "echo" .empty]], .breaksAfter [.content "Done."] Http.badBody]
      none _ _ _ (by decide) fun
      | 0, _, q => (RemoteBackend.place_responds (r := .echoing) hurl rfl q).symm ▸
          RemoteBackend.encodes_echoing
      | 1, _, q => (RemoteBackend.place_responds (r := .faltering) hurl rfl q).symm ▸
          RemoteBackend.encodes_faltering
  rw [hrun]
  decide +kernel

/-- Both conditions are needed. A peer may send a line that is not JSON and is a chunk all the same:
it is trimmed before it is read. And where the line that reports an error is too long, it is that
which is told, in place of the error. -/
theorem not_follow_through :
    let Refines (filler report : String → Prop) : Prop :=
      ∀ (config : AgentConfig) (b : RemoteBackend) (transport : Nat → Http.Transport)
        (contact : Nat → Http.Call → Http.Contact) (turns : List Turn) (after : Option Turn)
        (registry : Registry) (request : ChatRequest) (c : Client),
        config.maxIterations ≤ turns.length →
        (∀ i (hi : i < turns.length) q,
          RemoteBackend.Encodes filler report (transport i) (contact i (b.call q)) turns[i]) →
        ((ofRegistry config (b.through transport contact) registry).run request).follow c .empty =
          ((ofRegistry config (.scripted turns after) registry).run request).follow c .empty
    ¬ Refines (fun l => Text.isBlankText l ∨ ¬ Json.IsText l.toList) Short ∧
      ¬ Refines Filler fun _ => True := by
  intro Refines
  refine ⟨fun h => ?_, fun h => ?_⟩
  · have hfiller :
        ¬ Json.IsText "\u00a0\x7b\"message\":\x7b\"content\":\"Hello!\"\x7d\x7d".toList :=
      Json.not_isText_cons (by decide) _
    have hrun := h ⟨"Be brief.", 1, .sequential⟩ .usual (fun _ => .usual)
      (fun _ _ => .response ⟨200, [], StreamItem.encodeLines
        ["\u00a0\x7b\"message\":\x7b\"content\":\"Hello!\"\x7d\x7d"], .whole⟩)
      [.chunks []] none .echoing .hello .patient (by decide) fun
        | 0, _, _ =>
          .chunks rfl rfl ⟨nofun, .filler (.inr hfiller) (by decide) .nil, by unfold Short; decide⟩
            (.inl rfl)
    exact absurd (congrArg (·.1.events) hrun) (by decide +kernel)
  · obtain ⟨reason, hreason⟩ : ∃ reason : String, reason.toList.length = 1024 * 1024 :=
      ⟨String.ofList (List.replicate (1024 * 1024) 'x'), by
        rw [String.toList_ofList, List.length_replicate]⟩
    have hrun := h ⟨"Be brief.", 1, .sequential⟩ .usual (fun _ => .direct)
      (fun _ _ => .response (.reporting reason)) [.breaksAfter [] reason] none .echoing .hello
      .patient (Nat.le_refl 1) fun
        | 0, _, _ => RemoteBackend.encodes_reporting reason
    rw [RemoteBackend.through_reporting hreason.ge] at hrun
    have hends : (.failed (.stream "line too long") : Ending RunOutcome) =
        .failed (.stream reason) := congrArg (·.2) hrun
    cases hends
    exact absurd hreason (by decide)

end Agent

end ChatAgent
