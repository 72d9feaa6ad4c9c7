import ChatAgent.Agent.Config
import ChatAgent.Agent.Request
import ChatAgent.Backend.Chunk
import ChatAgent.Proofs.Records
import ChatAgent.Tool.Definition

/-!
# Round trips

Requests, messages, tools, configurations and chunks are read again from the texts that are written
of them, so that no two of them are written alike (`Json.roundTrips`).
-/

namespace ChatAgent

open Json (Rereads Regular)
open Json.Given (required_bind optional_bind orElse_bind)

/-! ## Words -/

theorem Role.rereads {r : Role} : Rereads read r.toJson r :=
  .word (by cases r <;> rfl)

theorem Dispatch.rereads {d : Dispatch} : Rereads read d.toJson d :=
  .word (by cases d <;> rfl)

/-! ## Conversations -/

theorem ToolCall.rereads {c : ToolCall} (h : c.arguments.Regular) :
    Rereads read c.toJson c := by
  refine .record ["id", "name", "arguments"] (fun _ _ => rfl) (.refl _) (by decide) ?_
    fun n hn => ?_
  · simpa using ⟨.string, .string, (Rereads.json h).exact⟩
  · rw [required_bind hn rfl .string, required_bind hn rfl .string, orElse_bind hn rfl (.json h)]
    rfl

theorem ToolResult.rereads {r : ToolResult} : Rereads read r.toJson r := by
  refine .record (["tool_call_id", "content"] ++ ["error"]) (fun _ _ => rfl) ?_ (by decide) ?_
    fun n hn => ?_
  · rw [List.map_append]
    exact (List.Sublist.refl _).append (Json.sublist_present ..)
  · rw [List.forall_mem_append]
    refine ⟨by simpa using ⟨.string, .string⟩, Json.exact_present _ ?_⟩
    simp [Json.Exact.string]
  · rw [required_bind hn rfl .string, orElse_bind hn rfl .string,
      optional_bind hn r.error (by simp [List.lookup_cons]) (fun _ _ => .string) nofun]
    rfl

/-- The arguments of its tool calls are written without floats and in order. -/
def Message.Regular (m : Message) : Prop := ∀ cs ∈ m.toolCalls, ∀ c ∈ cs, c.arguments.Regular

theorem Message.rereads {m : Message} (h : m.Regular) : Rereads read m.toJson m := by
  have hcalls : ∀ cs ∈ m.toolCalls,
      Rereads (.list ToolCall.read) (.array (cs.map ToolCall.toJson)) cs :=
    fun cs hcs => .list fun c hc => ToolCall.rereads (h cs hcs c hc)
  refine .record (["role"] ++ ["content"] ++ ["tool_calls"] ++ ["tool_call_id"]) (fun _ _ => rfl)
    ?_ (by decide) ?_ fun n hn => ?_
  · simp only [List.map_append]
    exact (((List.Sublist.refl _).append (Json.sublist_present ..)).append
      (Json.sublist_present ..)).append (Json.sublist_present ..)
  · simp only [List.forall_mem_append]
    refine ⟨⟨⟨by simpa using Role.rereads.exact, Json.exact_present _ ?_⟩,
      Json.exact_present _ ?_⟩, Json.exact_present _ ?_⟩
    · simp [Json.Exact.string]
    · simpa using fun cs hcs => (hcalls cs hcs).exact
    · simp [Json.Exact.string]
  · rw [required_bind hn rfl Role.rereads,
      optional_bind hn m.content (by simp [List.lookup_append, List.lookup_cons])
        (fun _ _ => .string) nofun,
      optional_bind hn m.toolCalls (by simp [List.lookup_append, List.lookup_cons]) hcalls nofun,
      optional_bind hn m.toolCallId (by simp [List.lookup_append, List.lookup_cons])
        (fun _ _ => .string) nofun]
    rfl

theorem ChatRequest.rereads {r : ChatRequest} (h : ∀ m ∈ r.messages, m.Regular) :
    Rereads read r.toJson r := by
  have hmessages : Rereads Conversation.read r.messages.toJson r.messages :=
    .list fun m hm => Message.rereads (h m hm)
  refine .record ["model", "messages", "stream"] (fun _ _ => rfl) (.refl _) (by decide) ?_
    fun n hn => ?_
  · simpa using ⟨.string, hmessages.exact, .bool⟩
  · rw [required_bind hn rfl .string, required_bind hn rfl hmessages, orElse_bind hn rfl .bool]
    rfl

/-! ## Tools and configurations -/

theorem Property.rereads {p : Property} : Rereads read p.toJson p := by
  refine .record ["type", "description"] (fun _ _ => rfl) (.refl _) (by decide) ?_ fun n hn => ?_
  · simpa using ⟨.string, .string⟩
  · rw [required_bind hn rfl .string, required_bind hn rfl .string]
    rfl

/-- The properties are a table in ascending order. -/
def Parameters.Sorted (p : Parameters) : Prop := p.properties.Pairwise (·.1 < ·.1)

theorem Parameters.rereads {p : Parameters} (h : p.Sorted) : Rereads read p.toJson p := by
  have hrequired : Rereads (.list .string) (Json.strings p.required) p.required :=
    .list fun _ _ => .string
  have hproperties := Rereads.table h fun f _ => Property.rereads (p := f.2)
  refine .record ["type", "required", "properties"] (fun _ _ => rfl) (.refl _) (by decide) ?_
    fun n hn => ?_
  · simpa using ⟨.string, hrequired.exact, hproperties.exact⟩
  · rw [required_bind hn rfl .string, orElse_bind hn rfl hrequired,
      orElse_bind hn rfl hproperties]
    rfl

theorem Definition.rereads {t : Definition} (h : t.parameters.Sorted) :
    Rereads read t.toJson t := by
  have hparameters := Parameters.rereads h
  refine .record ["name", "description", "parameters"] (fun _ _ => rfl) (.refl _) (by decide) ?_
    fun n hn => ?_
  · simpa using ⟨.string, .string, hparameters.exact⟩
  · rw [required_bind hn rfl .string, required_bind hn rfl .string,
      required_bind hn rfl hparameters]
    rfl

theorem Offer.rereads {o : Offer} (h : o.function.parameters.Sorted) :
    Rereads read o.toJson o := by
  have hfunction := Definition.rereads h
  refine .record ["type", "function"] (fun _ _ => rfl) (.refl _) (by decide) ?_ fun n hn => ?_
  · simpa using ⟨.string, hfunction.exact⟩
  · rw [required_bind hn rfl .string, required_bind hn rfl hfunction]
    rfl

theorem AgentConfig.rereads {c : AgentConfig} (h : c.maxIterations ≤ word64Max) :
    Rereads read c.toJson c := by
  have hmax := Rereads.word64 h
  refine .record ["system_prompt", "max_iterations", "tool_dispatch"] (fun _ _ => rfl) (.refl _)
    (by decide) ?_ fun n hn => ?_
  · simpa using ⟨.string, hmax.exact, Dispatch.rereads.exact⟩
  · rw [required_bind hn rfl .string, orElse_bind hn rfl hmax,
      orElse_bind hn rfl Dispatch.rereads]
    rfl

/-! ## Chunks -/

theorem RawFunction.rereads {f : RawFunction} (h : f.arguments.Regular) :
    Rereads read f.toJson f := by
  refine .record ["name", "arguments"] (fun _ _ => rfl) (.refl _) (by decide) ?_ fun n hn => ?_
  · simpa using ⟨.string, (Rereads.json h).exact⟩
  · rw [orElse_bind hn rfl .string, orElse_bind hn rfl (.json h)]
    rfl

theorem RawCall.rereads {c : RawCall} (h : ∀ f ∈ c.function, f.arguments.Regular) :
    Rereads read c.toJson c := by
  have hfunction := Rereads.orNull (fun f hf => RawFunction.rereads (h f hf)) nofun
  refine .record ["function"] (fun _ _ => rfl) (.refl _) (by decide) ?_ fun n hn => ?_
  · simpa using hfunction.exact
  · rw [Json.Given.optional, orElse_bind hn rfl hfunction]
    rfl

/-- The arguments of its tool calls are written without floats and in order. -/
def ChunkMessage.Regular (m : ChunkMessage) : Prop :=
  ∀ c ∈ m.calls, ∀ f ∈ c.function, f.arguments.Regular

theorem ChunkMessage.rereads {m : ChunkMessage} (h : m.Regular) : Rereads read m.toJson m := by
  have hcontent : Rereads (.optional .string) _ m.content :=
    Rereads.orNull (fun _ _ => .string) nofun
  have hcalls : Rereads (.optional (.list RawCall.read)) _ m.toolCalls :=
    Rereads.orNull (fun cs hcs => .list fun c hc => RawCall.rereads
      (h c (by rwa [calls, Option.mem_def.mp hcs, Option.getD_some]))) nofun
  refine .record ["role", "content", "tool_calls"] (fun _ _ => rfl) (.refl _) (by decide) ?_
    fun n hn => ?_
  · simpa using ⟨Role.rereads.exact, hcontent.exact, hcalls.exact⟩
  · rw [orElse_bind hn rfl Role.rereads, Json.Given.optional, orElse_bind hn rfl hcontent,
      Json.Given.optional, orElse_bind hn rfl hcalls]
    rfl

/-- A chunk that carries no message has `null` in its place. -/
theorem ChunkMessage.rereads_orNull {value : Option ChunkMessage}
    (h : ∀ m ∈ value, m.Regular) :
    Rereads (.optional read) (Json.orNull (value.map toJson)) value :=
  .orNull (fun m hm => rereads (h m hm)) nofun

theorem Chunk.rereads {c : Chunk} (h : ∀ m ∈ c.message, m.Regular) :
    Rereads read c.toJson c := by
  have hmessage := ChunkMessage.rereads_orNull h
  refine .record ["message", "done"] (fun _ _ => rfl) (.refl _) (by decide) ?_ fun n hn => ?_
  · simpa using ⟨hmessage.exact, .bool⟩
  · rw [Json.Given.optional, orElse_bind hn rfl hmessage, orElse_bind hn rfl .bool]
    rfl

/-! ## Texts -/

namespace Json

/-- What is written of a value that nests no deeper than readers may enter is read as that value
again, and no other such value is written like it. -/
def RoundTrips {α : Type} (toJson : α → Json) (r : Reader α) (Valid : α → Prop) : Prop :=
  ∀ a, Valid a → (toJson a).nesting ≤ 127 →
    readText? r (toJson a).text = some a ∧
      ∀ b, Valid b → (toJson b).nesting ≤ 127 → (toJson b).text = (toJson a).text → b = a

theorem RoundTrips.of_rereads {α : Type} {toJson : α → Json} {r : Reader α} {Valid : α → Prop}
    (h : ∀ a, Valid a → Rereads r (toJson a) a) : RoundTrips toJson r Valid := by
  intro a ha hn
  have hread := (h a ha).readText? hn
  refine ⟨hread, fun b hb hm htext => ?_⟩
  have hother := (h b hb).readText? hm
  rw [htext, hread] at hother
  exact (Option.some.inj hother).symm

/-- Whatever is written as JSON is read again, as long as the free values in it have no floats and
the tables in it are in order. -/
theorem roundTrips :
    RoundTrips ChatRequest.toJson ChatRequest.read (fun r => ∀ m ∈ r.messages, m.Regular) ∧
      RoundTrips Message.toJson Message.read Message.Regular ∧
      RoundTrips ToolCall.toJson ToolCall.read (fun c => c.arguments.Regular) ∧
      RoundTrips ToolResult.toJson ToolResult.read (fun _ => True) ∧
      RoundTrips Parameters.toJson Parameters.read Parameters.Sorted ∧
      RoundTrips Definition.toJson Definition.read (fun t => t.parameters.Sorted) ∧
      RoundTrips Offer.toJson Offer.read (fun o => o.function.parameters.Sorted) ∧
      RoundTrips AgentConfig.toJson AgentConfig.read (fun c => c.maxIterations ≤ word64Max) ∧
      RoundTrips ChunkMessage.toJson ChunkMessage.read ChunkMessage.Regular ∧
      RoundTrips Chunk.toJson Chunk.read (fun c => ∀ m ∈ c.message, m.Regular) :=
  ⟨.of_rereads fun _ => ChatRequest.rereads, .of_rereads fun _ => Message.rereads,
    .of_rereads fun _ => ToolCall.rereads, .of_rereads fun _ _ => ToolResult.rereads,
    .of_rereads fun _ => Parameters.rereads, .of_rereads fun _ => Definition.rereads,
    .of_rereads fun _ => Offer.rereads, .of_rereads fun _ => AgentConfig.rereads,
    .of_rereads fun _ => ChunkMessage.rereads, .of_rereads fun _ => Chunk.rereads⟩

/-- A list of calls that is empty is not the same as none. -/
theorem roundTrips_asking :
    readText? Message.read "\x7b\"role\":\"assistant\",\"tool_calls\":[]\x7d" =
        some ⟨.assistant, none, some [], none⟩ ∧
      readText? Message.read "\x7b\"role\":\"assistant\"\x7d" =
        some ⟨.assistant, none, none, none⟩ := by
  have hempty := (roundTrips.2.1 ⟨.assistant, none, some [], none⟩ (by simp [Message.Regular])
    (by decide)).1
  have hnone := (roundTrips.2.1 ⟨.assistant, none, none, none⟩ (by simp [Message.Regular])
    (by decide)).1
  exact ⟨hempty, hnone⟩

end Json

end ChatAgent
