import ChatAgent.Proofs.Reply

/-!
# What is kept of a turn

Chunks are taken in one by one, and each time it is decided anew which message to keep. In the end
it is the first of all that asks for tools, or else the first of all (`Gathering.kept_pushAll`), and
it says the text of the whole turn (`Reply.ofGathering_pushAll`).
-/

namespace ChatAgent

namespace ChunkMessage

/-- The first message that asks for tools, or else the first. -/
def first (ms : List ChunkMessage) : Option ChunkMessage := (ms.find? (·.calls ≠ [])).or ms.head?

@[simp] theorem first_nil : first [] = none := rfl

@[simp] theorem first_singleton (m : ChunkMessage) : first [m] = some m := by
  by_cases hm : m.calls = [] <;> simp [first, hm]

theorem first_cons_asking {m : ChunkMessage} (h : m.calls ≠ []) (ms : List ChunkMessage) :
    first (m :: ms) = some m := by
  simp [first, h]

theorem first_cons_silent {m : ChunkMessage} (h : m.calls = []) (n : ChunkMessage) :
    first [m, n] = if n.calls = [] then some m else some n := by
  by_cases hn : n.calls = [] <;> simp [first, h, hn]

theorem first_eq_none_iff {ms : List ChunkMessage} : first ms = none ↔ ms = [] := by
  cases ms <;> simp [first]

/-- The choice can be made piece by piece. -/
theorem first_append (ms ns : List ChunkMessage) :
    first (ms ++ ns) = first ((first ms).toList ++ ns) := by
  cases hf : ms.find? (·.calls ≠ []) with
  | some m =>
      have hasks : m.calls ≠ [] := by simpa using List.find?_some hf
      have hfirst : first ms = some m := by rw [first, hf, Option.some_or]
      rw [hfirst, Option.toList_some, List.singleton_append, first_cons_asking hasks, first,
        List.find?_append, hf]
      rfl
  | none =>
      cases ms with
      | nil => rfl
      | cons m ms =>
          have hm : ¬ m.calls ≠ [] := by simpa using List.find?_eq_none.mp hf m List.mem_cons_self
          have hfirst : first (m :: ms) = some m := by
            rw [first, hf, Option.none_or, List.head?_cons]
          rw [hfirst, first, first, List.find?_append, hf, Option.none_or, Option.toList_some,
            List.singleton_append, List.find?_cons_of_neg (by simpa using hm)]
          rfl

end ChunkMessage

open ChunkMessage (first first_append)

namespace Gathering

theorem keep_eq (g : Gathering) (m : ChunkMessage) : g.keep m = first (g.kept.toList ++ [m]) := by
  cases hk : g.kept with
  | none => simp [keep, asks, hk]
  | some k =>
      by_cases hasks : k.calls = []
      · have hfirst := ChunkMessage.first_cons_silent hasks m
        by_cases hm : m.calls = [] <;> simp [keep, asks, ChunkMessage.asks, hk, hasks, hm, hfirst]
      · simp [keep, asks, ChunkMessage.asks, hk, hasks, ChunkMessage.first_cons_asking]

theorem kept_push (g : Gathering) (c : Chunk) :
    (g.push c).kept = first (g.kept.toList ++ c.message.toList) := by
  cases hm : c.message with
  | some m => simp only [push, hm, keep_eq, Option.toList_some]
  | none =>
      simp only [push, hm]
      cases g.kept <;> simp

theorem kept_pushAll (g : Gathering) (cs : List Chunk) :
    (g.pushAll cs).kept = first (g.kept.toList ++ cs.filterMap (·.message)) := by
  induction cs generalizing g with
  | nil => cases hk : g.kept <;> simp [hk]
  | cons c cs ih =>
      have hmessages : (c :: cs).filterMap (·.message) =
          c.message.toList ++ cs.filterMap (·.message) := by
        cases hm : c.message <;> simp [hm]
      rw [pushAll_cons, ih, kept_push, hmessages, ← List.append_assoc, ← first_append]

theorem done_pushAll (g : Gathering) (cs : List Chunk) :
    (g.pushAll cs).done = (g.done || cs.any (·.done)) := by
  induction cs generalizing g with
  | nil => simp
  | cons c cs ih => rw [pushAll_cons, ih, push, Bool.or_assoc, List.any_cons]

theorem delta?_eq_some_iff {c : Chunk} {text : String} :
    delta? c = some text ↔ ∃ m, c.message = some m ∧ m.content = some text ∧ text ≠ "" := by
  simp only [delta?, Option.bind]
  grind [String.isEmpty_iff]

end Gathering

namespace Reply

theorem message_ofGathering (cs : List Chunk) :
    (ofGathering (Gathering.empty.pushAll cs)).message =
      (first (cs.filterMap (·.message))).map fun m =>
        { m with content := some (String.join (Gathering.deltas cs)) } := by
  have hkept : (Gathering.empty.pushAll cs).kept = first (cs.filterMap (·.message)) :=
    Gathering.kept_pushAll .empty cs
  have htext : (Gathering.empty.pushAll cs).text = String.join (Gathering.deltas cs) :=
    (Gathering.text_pushAll .empty cs).trans String.empty_append
  rw [ofGathering, htext, hkept]
  cases first (cs.filterMap (·.message)) <;> rfl

/-- The reply has the role and the tool calls of the first message that asks for tools, or else of
the first of all, with the text of all chunks. It is complete if some chunk says so. -/
theorem ofGathering_pushAll (cs : List Chunk) :
    let reply := ofGathering (Gathering.empty.pushAll cs)
    let ms := cs.filterMap (·.message)
    let text := String.join (cs.filterMap Gathering.delta?)
    (∀ c ∈ cs, ∀ s, Gathering.delta? c = some s ↔
      ∃ m, c.message = some m ∧ m.content = some s ∧ s ≠ "") ∧
    reply.message =
      ((ms.find? (·.calls ≠ [])).or ms.head?).map (fun m => { m with content := some text }) ∧
    (reply.message = none ↔ ∀ c ∈ cs, c.message = none) ∧
    reply.done = cs.any (·.done) ∧
    ∀ before after m, cs = before ++ after →
      (ofGathering (Gathering.empty.pushAll before)).message = some m → m.calls ≠ [] →
        ∃ k, reply.message = some k ∧ k.role = m.role ∧ k.toolCalls = m.toolCalls := by
  intro reply ms text
  refine ⟨fun c _ s => Gathering.delta?_eq_some_iff, message_ofGathering cs, ?_, ?_, ?_⟩
  · rw [message_ofGathering, Option.map_eq_none_iff, ChunkMessage.first_eq_none_iff]
    simp
  · exact Gathering.done_pushAll .empty cs
  · rintro before after m rfl hm hasks
    rw [message_ofGathering] at hm
    obtain ⟨k, hk, rfl⟩ := Option.map_eq_some_iff.mp hm
    have hfirst : first ((before ++ after).filterMap (·.message)) = some k := by
      rw [List.filterMap_append, first_append, hk, Option.toList_some, List.singleton_append]
      exact ChunkMessage.first_cons_asking (m := k) hasks _
    refine ⟨{ k with content := some text }, ?_, rfl, rfl⟩
    rw [message_ofGathering, hfirst]
    rfl

theorem ofGathering_pushAll_asking :
    let before : List Chunk := [.content "Let me see.", .calls [.ofFunction "echo" .empty]]
    let after : List Chunk := [.calls [.ofFunction "python" .empty], ⟨none, true⟩]
    let reply := ofGathering (Gathering.empty.pushAll (before ++ after))
    reply.message =
        some ⟨.assistant, some "Let me see.", some [.ofFunction "echo" .empty]⟩ ∧
      reply.done = true ∧
      ∃ k, reply.message = some k ∧ k.role = .assistant ∧
        k.toolCalls = some [.ofFunction "echo" .empty] := by
  intro before after reply
  obtain ⟨-, hmessage, -, hdone, hstays⟩ := ofGathering_pushAll (before ++ after)
  exact ⟨hmessage.trans (by decide), hdone, hstays before after
    ⟨.assistant, some "Let me see.", some [.ofFunction "echo" .empty]⟩ rfl (by decide) (by decide)⟩

end Reply

end ChatAgent
