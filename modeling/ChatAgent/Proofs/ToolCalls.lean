import ChatAgent.Backend.Request
import ChatAgent.Proofs.JsonText
import ChatAgent.Proofs.Reply

/-!
# Tool calls as backends write them

A raw call that names a function is a tool call, whose id is its position and whose arguments are an
object (`ChunkMessage.toolCallsOf_positions`). A backend that is told of tool calls gives them back
as they were but for their ids, whether it writes their arguments as objects or as texts
(`ToolCall.given_back`).
-/

namespace ChatAgent

namespace ChunkMessage

variable {c : RawCall} {i : Nat} {call : ToolCall} {m : ChunkMessage}

/-! ## Arguments -/

theorem isObject_normalize (arguments : Json) : (normalize arguments).isObject := by
  unfold normalize
  split
  · rfl
  · split <;> rfl
  · rfl

theorem normalize_of_isObject {arguments : Json} (h : arguments.isObject) :
    normalize arguments = arguments := by
  cases arguments with
  | object fields => rfl
  | _ => cases h

theorem normalize_eq_iff {arguments : Json} :
    normalize arguments = arguments ↔ arguments.isObject := by
  refine ⟨fun h => ?_, normalize_of_isObject⟩
  rw [← h]
  exact isObject_normalize arguments

theorem normalize_string {s : String} {fields : List (String × Json)}
    (h : Json.ofText? s = some (.object fields)) : normalize (.string s) = .object fields := by
  simp only [normalize, h]

/-! ## Positions -/

/-- The raw call at a position names a function. -/
def NamesAt (m : ChunkMessage) (i : Nat) (f : RawFunction) : Prop :=
  m.calls[i]? = some ⟨some f⟩ ∧ f.name ≠ ""

theorem call?_function {f : RawFunction} (h : f.name ≠ "") (i : Nat) :
    call? ⟨some f⟩ i = some ⟨"call_" ++ toString i, f.name, normalize f.arguments⟩ :=
  if_neg (by simpa using h)

theorem call?_eq_some_iff :
    call? c i = some call ↔ ∃ f, c = ⟨some f⟩ ∧ f.name ≠ "" ∧
      call = ⟨"call_" ++ toString i, f.name, normalize f.arguments⟩ := by
  constructor
  · intro h
    obtain ⟨_ | f⟩ := c
    · cases h
    by_cases hf : f.name = ""
    · simp [call?, hf] at h
    · rw [call?_function hf] at h
      cases h
      exact ⟨f, rfl, hf, rfl⟩
  · rintro ⟨f, rfl, hf, rfl⟩
    exact call?_function hf i

theorem forall₂_filterMap {α β : Type} (f : α → Option β) (as : List α) :
    List.Forall₂ (fun a b => a ∈ as ∧ f a = some b) (as.filter fun a => (f a).isSome)
      (as.filterMap f) := by
  induction as with
  | nil => exact .nil
  | cons a as ih =>
      have ih := ih.imp fun x y (h : x ∈ as ∧ f x = some y) =>
        And.intro (List.mem_cons_of_mem a h.1) h.2
      cases ha : f a with
      | none =>
          rw [List.filter_cons_of_neg (by simp [ha]), List.filterMap_cons_none ha]
          exact ih
      | some b =>
          rw [List.filter_cons_of_pos (by simp [ha]), List.filterMap_cons_some ha]
          exact .cons ⟨List.mem_cons_self, ha⟩ ih

/-- The positions of the raw calls that name a function. -/
def positions (m : ChunkMessage) : List Nat :=
  (m.calls.zipIdx.filter fun (c, i) => (call? c i).isSome).map (·.2)

theorem positions_pairwise (m : ChunkMessage) : m.positions.Pairwise (· < ·) := by
  have hall : (m.calls.zipIdx.map (·.2)).Pairwise (· < ·) := by
    rw [List.zipIdx_map_snd]
    exact List.pairwise_lt_range'
  exact hall.sublist (List.filter_sublist.map _)

theorem mem_positions : i ∈ m.positions ↔ ∃ f, m.NamesAt i f := by
  simp only [positions, List.mem_map, List.mem_filter]
  constructor
  · rintro ⟨⟨c, j⟩, ⟨hc, hsome⟩, rfl⟩
    obtain ⟨call, hcall⟩ := Option.isSome_iff_exists.mp hsome
    obtain ⟨f, rfl, hf, -⟩ := call?_eq_some_iff.mp hcall
    exact ⟨f, List.mk_mem_zipIdx_iff_getElem?.mp hc, hf⟩
  · rintro ⟨f, hi, hf⟩
    refine ⟨(_, i), ⟨List.mk_mem_zipIdx_iff_getElem?.mpr hi, ?_⟩, rfl⟩
    rw [call?_function hf]
    rfl

theorem forall₂_positions (m : ChunkMessage) :
    List.Forall₂ (fun i call => ∃ f, m.NamesAt i f ∧
      call = ⟨"call_" ++ toString i, f.name, normalize f.arguments⟩) m.positions m.toolCallsOf := by
  rw [positions, List.forall₂_map_left_iff]
  refine (forall₂_filterMap _ _).imp ?_
  rintro ⟨c, i⟩ call ⟨hc, hcall⟩
  obtain ⟨f, rfl, hf, rfl⟩ := call?_eq_some_iff.mp hcall
  exact ⟨f, ⟨List.mk_mem_zipIdx_iff_getElem?.mp hc, hf⟩, rfl⟩

theorem toolCallsOf_append (m : ChunkMessage) (more : List RawCall) :
    m.toolCallsOf <+: toolCallsOf { m with toolCalls := some (m.calls ++ more) } := by
  simp only [toolCallsOf, calls, Option.getD_some, List.zipIdx_append, List.filterMap_append]
  exact List.prefix_append _ _

/-- The raw calls that name a function are the tool calls, in order. Each of them has its position
as its id and an object as its arguments, and no two of them have the same id. More raw calls behind
them change none of them. -/
theorem toolCallsOf_positions (m : ChunkMessage) :
    ∃ positions : List Nat, positions.Pairwise (· < ·) ∧
      (∀ i, i ∈ positions ↔ ∃ f, m.NamesAt i f) ∧
      List.Forall₂ (fun i call => ∃ f, m.NamesAt i f ∧
        call = ⟨"call_" ++ toString i, f.name, normalize f.arguments⟩) positions m.toolCallsOf ∧
      (m.toolCallsOf.map (·.id)).Nodup ∧
      (∀ more, m.toolCallsOf <+: toolCallsOf { m with toolCalls := some (m.calls ++ more) }) ∧
      ∀ arguments, (normalize arguments).isObject ∧
        normalize (normalize arguments) = normalize arguments ∧
        (normalize arguments = arguments ↔ arguments.isObject) := by
  refine ⟨m.positions, positions_pairwise m, fun i => mem_positions, forall₂_positions m,
    nodup_ids m, toolCallsOf_append m, fun arguments => ?_⟩
  have hobject := isObject_normalize arguments
  exact ⟨hobject, normalize_of_isObject hobject, normalize_eq_iff⟩

end ChunkMessage

/-! ## There and back -/

namespace ToolCall

/-- The calls of an assistant's message as they are when a backend gives them back. -/
def givenBack (content : String) (calls : List ToolCall) : List ToolCall :=
  ChunkMessage.toolCallsOf
    ⟨.assistant, some content, (BackendMessage.ofMessage (.asking content calls)).toolCalls⟩

theorem givenBack_eq {calls : List ToolCall}
    (h : ∀ c ∈ calls, c.name ≠ "" ∧ c.arguments.isObject) (content : String) :
    givenBack content calls = calls.mapIdx fun i c => { c with id := "call_" ++ toString i } := by
  have hcall : ∀ p ∈ calls.zipIdx,
      ChunkMessage.call? (.ofFunction p.1.name p.1.arguments) p.2 =
        some { p.1 with id := "call_" ++ toString p.2 } := by
    rintro ⟨c, i⟩ hp
    obtain ⟨hname, hobject⟩ := h c (List.fst_mem_of_mem_zipIdx hp)
    rw [RawCall.ofFunction, ChunkMessage.call?_function hname,
      ChunkMessage.normalize_of_isObject hobject]
  rw [List.mapIdx_eq_zipIdx_map, ← List.filterMap_eq_map]
  refine Eq.trans ?_ (List.filterMap_congr hcall)
  simp only [givenBack, ChunkMessage.toolCallsOf, ChunkMessage.calls, BackendMessage.ofMessage,
    Message.asking, Option.map_some, Option.getD_some, List.zipIdx_map, List.filterMap_map]
  rfl

theorem givenBack_givenBack {calls : List ToolCall}
    (h : ∀ c ∈ calls, c.name ≠ "" ∧ c.arguments.isObject) (content content' : String) :
    givenBack content' (givenBack content calls) = givenBack content calls := by
  have hagain : ∀ c ∈ givenBack content calls, c.name ≠ "" ∧ c.arguments.isObject := by
    rw [givenBack_eq h]
    intro c hc
    obtain ⟨i, hi, rfl⟩ := List.mem_mapIdx.mp hc
    exact h calls[i] (List.getElem_mem hi)
  rw [givenBack_eq hagain, givenBack_eq h, List.mapIdx_mapIdx]
  rfl

end ToolCall

namespace ChunkMessage

theorem normalize_text {fields : List (String × Json)} (h : Json.Plain 127 (.object fields))
    {before after : String}
    (hspace : ∀ c ∈ before.toList ++ after.toList, c ∈ [' ', '\t', '\n', '\r']) :
    normalize (.string (before ++ (Json.object fields).text ++ after)) = .object fields := by
  have hspace : ∀ c ∈ before.toList ++ after.toList, Json.Token.isSpace (some c) := by
    simpa [Json.Token.isSpace, or_assoc] using hspace
  obtain ⟨hbefore, hafter⟩ := List.forall_mem_append.mp hspace
  exact normalize_string (Json.ofText?_spaced h hbefore hafter)

theorem toolCallsOf_congr {c d : RawCall} (h : ∀ i, call? c i = call? d i) (role : Role)
    (content : Option String) (front back : List RawCall) :
    toolCallsOf ⟨role, content, some (front ++ c :: back)⟩ =
      toolCallsOf ⟨role, content, some (front ++ d :: back)⟩ := by
  simp only [toolCallsOf, calls, Option.getD_some, List.zipIdx_append, List.zipIdx_cons,
    List.filterMap_append, List.filterMap_cons, h]

end ChunkMessage

/-- Tool calls come back with their names and arguments, in order, and with their positions as their
ids; a second time nothing changes. Wherever a backend writes arguments as the text of an object,
with white space around it or not, the tool calls are the same as if it wrote the object. -/
theorem ToolCall.given_back :
    (∀ calls : List ToolCall, (∀ c ∈ calls, c.name ≠ "" ∧ c.arguments.isObject) →
      ∀ content content',
        givenBack content calls = calls.mapIdx (fun i c => ⟨"call_" ++ toString i, c.name,
          c.arguments⟩) ∧
        givenBack content' (givenBack content calls) = givenBack content calls) ∧
    ∀ fields, Json.Plain 127 (.object fields) → ∀ before after : String,
      (∀ c ∈ before.toList ++ after.toList, c ∈ [' ', '\t', '\n', '\r']) →
      ∀ name role content front back,
        let text := before ++ (Json.object fields).text ++ after
        ChunkMessage.toolCallsOf
            ⟨role, content, some (front ++ .ofFunction name (.string text) :: back)⟩ =
          ChunkMessage.toolCallsOf
            ⟨role, content, some (front ++ .ofFunction name (.object fields) :: back)⟩ := by
  constructor
  · intro calls h content content'
    exact ⟨givenBack_eq h content, givenBack_givenBack h content content'⟩
  · intro fields hfields before after hspace name role content front back text
    refine ChunkMessage.toolCallsOf_congr (fun i => ?_) role content front back
    simp only [ChunkMessage.call?, RawCall.ofFunction, text,
      ChunkMessage.normalize_text hfields hspace]
    rfl

theorem ToolCall.given_back_nested :
    let code := Json.object [("code", .string "\x7b\x7d")]
    let front := [RawCall.ofFunction "" .empty]
    givenBack "Let me see." [⟨"b", "echo", .empty⟩, ⟨"b", "python", code⟩] =
        [⟨"call_0", "echo", .empty⟩, ⟨"call_1", "python", code⟩] ∧
      ChunkMessage.toolCallsOf
          ⟨.assistant, none, some (front ++ [.ofFunction "python" (.string
            " \x7b\"code\":\"\x7b\x7d\"\x7d\n")])⟩ = [⟨"call_1", "python", code⟩] := by
  intro code front
  obtain ⟨hback, htext⟩ := ToolCall.given_back
  have hcode : Json.Plain 127 code :=
    .object (List.pairwise_singleton _ _) (by simp [Json.Plain.string])
  have hspace : ∀ c ∈ " ".toList ++ "\n".toList, c ∈ [' ', '\t', '\n', '\r'] := by simp
  have hsame := htext _ hcode " " "\n" hspace "python" .assistant none front []
  refine ⟨(hback _ (by decide) "Let me see." "").1.trans rfl, Eq.trans ?_ (hsame.trans ?_)⟩
  · rfl
  · decide

end ChatAgent
