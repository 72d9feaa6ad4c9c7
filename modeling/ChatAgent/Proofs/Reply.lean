import ChatAgent.Backend.Reply
import ChatAgent.Backend.Turn
import ChatAgent.Agent.Process
import Mathlib.Data.List.Nodup

/-!
# What a turn of the backend comes to

An answer counts up to the first mark of the end or the first failure. The text of the reply is what
was passed on while it streamed in (`Turn.content_eq_join`), and its tool calls have different ids
(`Reply.nodup_ids`).
-/

namespace ChatAgent

/-! ## The chunks that count -/

namespace StreamItem

/-- The chunks of an answer that are looked at. -/
def taken : List StreamItem → List Chunk
  | .ok c :: items => c :: if c.done then [] else taken items
  | _ => []

def reading (hangs : Bool) : List StreamItem → Ending Unit
  | [] => if hangs then .hung else .finished ()
  | .error f :: _ => .failed f
  | .ok c :: items => if c.done then .finished () else reading hangs items

end StreamItem

/-! ## Text -/

namespace Gathering

def deltas (cs : List Chunk) : List String := cs.filterMap delta?

def pushAll (g : Gathering) (cs : List Chunk) : Gathering := cs.foldl push g

@[simp] theorem pushAll_nil (g : Gathering) : g.pushAll [] = g := rfl

@[simp] theorem pushAll_cons (g : Gathering) (c : Chunk) (cs : List Chunk) :
    g.pushAll (c :: cs) = (g.push c).pushAll cs := rfl

theorem text_push (g : Gathering) (c : Chunk) :
    (g.push c).text = g.text ++ String.join (delta? c).toList := by
  cases h : delta? c <;> simp [push, text, h]

theorem text_pushAll (g : Gathering) (cs : List Chunk) :
    (g.pushAll cs).text = g.text ++ String.join (deltas cs) := by
  induction cs generalizing g with
  | nil => simp [deltas]
  | cons c cs ih =>
      rw [pushAll_cons, ih, text_push]
      cases h : delta? c <;> simp [deltas, h, String.append_assoc]

theorem delta?_of_message_none {c : Chunk} (h : c.message = none) : delta? c = none := by
  simp [delta?, h]

theorem kept_push_ne_none {g : Gathering} {c : Chunk} (h : g.kept ≠ none ∨ c.message ≠ none) :
    (g.push c).kept ≠ none := by
  cases hm : c.message with
  | none => simpa [push, hm] using h
  | some m =>
      simp only [push, hm, keep]
      split
      · exact Option.some_ne_none m
      · rename_i hk
        intro hn
        simp [asks, hn] at hk

theorem kept_pushAll_ne_none {g : Gathering} (cs : List Chunk) (h : g.kept ≠ none) :
    (g.pushAll cs).kept ≠ none := by
  induction cs generalizing g with
  | nil => exact h
  | cons c cs ih => exact ih (kept_push_ne_none (.inl h))

/-- Where no message is kept, no text has come. -/
theorem deltas_of_kept_none {g : Gathering} {cs : List Chunk} (h : (g.pushAll cs).kept = none) :
    deltas cs = [] := by
  induction cs generalizing g with
  | nil => rfl
  | cons c cs ih =>
      have hm : c.message = none := by
        by_contra hc
        exact kept_pushAll_ne_none cs (kept_push_ne_none (.inr hc)) h
      simpa [deltas, delta?_of_message_none hm] using ih h

end Gathering

namespace Turn

/-- The texts of an answer that are passed on. -/
def deltas : Turn → List String
  | refused _ => []
  | streamed items _ => Gathering.deltas (StreamItem.taken items)

def outcome : Turn → Ending Reply
  | refused f => .failed f
  | streamed items hangs =>
    match StreamItem.reading hangs items with
    | .finished _ => .finished (.ofGathering (Gathering.empty.pushAll (StreamItem.taken items)))
    | .failed f => .failed f
    | .hung => .hung

/-- The answer comes to an end, and not by reporting that the client went away. -/
def Settles (t : Turn) : Prop := t.outcome ≠ .hung ∧ t.outcome ≠ .failed .cancelled

theorem settles_refused {f : Failure} (hf : f ≠ .cancelled) : (refused f).Settles :=
  ⟨nofun, fun h => hf (by cases h; rfl)⟩

/-- A stream settles that is over some time and does not report that the client went away. -/
theorem settles_streamed {items : List StreamItem} (h : .error .cancelled ∉ items) :
    (streamed items false).Settles := by
  have hr : StreamItem.reading false items ≠ .hung ∧
      StreamItem.reading false items ≠ .failed .cancelled := by
    induction items with
    | nil => exact ⟨nofun, nofun⟩
    | cons item items ih =>
        cases item with
        | error f => exact ⟨nofun, fun hc => h (by cases hc; exact List.mem_cons_self)⟩
        | ok c =>
            rw [StreamItem.reading]
            split
            · exact ⟨nofun, nofun⟩
            · exact ih fun hm => h (List.mem_cons_of_mem _ hm)
  simp only [Settles, outcome]
  split
  · exact ⟨nofun, nofun⟩
  · rename_i f hf
    exact ⟨nofun, fun hc => hr.2 (hf.trans (by cases hc; rfl))⟩
  · rename_i hh
    exact absurd hh hr.1

theorem settles_chunks (cs : List Chunk) : (chunks cs).Settles :=
  settles_streamed (by simp)

def calls (t : Turn) : List ToolCall :=
  match t.outcome with
  | .finished r => r.toolCalls
  | _ => []

theorem calls_of_outcome {t : Turn} {r : Reply} (h : t.outcome = .finished r) :
    t.calls = r.toolCalls := by
  simp [calls, h]

/-- The text of a reply is all that was passed on, whichever message was kept. -/
theorem content_eq_join {t : Turn} {r : Reply} (h : t.outcome = .finished r) :
    r.content = String.join t.deltas := by
  cases t with
  | refused f => cases h
  | streamed items hangs =>
      simp only [outcome] at h
      split at h
      · cases h
        simp only [deltas, Reply.content, Reply.ofGathering]
        split
        · simp only [Option.bind_some, Option.getD_some, Gathering.text_pushAll]
          exact String.empty_append
        · rename_i hk
          simp [Gathering.deltas_of_kept_none hk]
      · cases h
      · cases h

end Turn

/-! ## Tool calls -/

namespace ChunkMessage

theorem id_of_call? {c : RawCall} {i : Nat} {call : ToolCall} (h : call? c i = some call) :
    call.id = "call_" ++ toString i := by
  simp only [call?] at h
  split at h
  · split at h
    · cases h
    · cases h
      rfl
  · cases h

def idAt (i : Nat) : String := "call_" ++ toString i

theorem idAt_injective : Function.Injective idAt := by
  intro i j h
  have hd : Nat.toDigits 10 i = Nat.toDigits 10 j := by
    simpa [idAt] using congrArg String.toList h
  simpa using congrArg (Nat.ofDigitChars 10 · 0) hd

/-- Calls are named by their positions in order, with a gap for each that names no function. -/
theorem ids_sublist (cs : List RawCall) (k : Nat) :
    (((cs.zipIdx k).filterMap fun (c, i) => call? c i).map (·.id)).Sublist
      ((List.range' k cs.length).map idAt) := by
  induction cs generalizing k with
  | nil => exact List.Sublist.slnil
  | cons c cs ih =>
      rw [List.zipIdx_cons, List.length_cons, List.range'_succ, List.map_cons]
      cases hc : call? c k with
      | none =>
          simp only [List.filterMap_cons, hc]
          exact (ih (k + 1)).cons _
      | some call =>
          simp only [List.filterMap_cons, hc, List.map_cons, id_of_call? hc]
          exact (ih (k + 1)).cons_cons _

theorem nodup_ids (m : ChunkMessage) : (m.toolCallsOf.map (·.id)).Nodup :=
  (ids_sublist m.calls 0).nodup (List.Nodup.map idAt_injective List.nodup_range')

end ChunkMessage

theorem Reply.nodup_ids (r : Reply) : (r.toolCalls.map (·.id)).Nodup := by
  simp only [toolCalls]
  split
  · exact ChunkMessage.nodup_ids _
  · exact List.nodup_nil

theorem Turn.nodup_ids (t : Turn) : (t.calls.map (·.id)).Nodup := by
  simp only [calls]
  split
  · exact Reply.nodup_ids _
  · exact List.nodup_nil

theorem Backend.settles_scripted {turns : List Turn} {after : Option Turn}
    (ht : ∀ t ∈ turns, t.Settles) (ha : ∀ t ∈ after, t.Settles) (n : Nat) (q : BackendRequest) :
    (scripted turns after n q).Settles := by
  simp only [scripted]
  split
  · rename_i t hn
    exact ht t (List.mem_of_getElem? hn)
  · cases after with
    | none => exact Turn.settles_refused nofun
    | some t => exact ha t rfl

end ChatAgent
