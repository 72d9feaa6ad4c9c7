import ChatAgent.Proofs.Merging
import ChatAgent.Proofs.Work

/-!
# The mark of the end

What a backend sends behind the mark of the end is not looked at: not text or wishes for tools, not
a failure, and not that nothing more comes (`Agent.run_of_sameToMark`). What comes together with the
mark counts like all before it (`Agent.Course.told`).
-/

namespace ChatAgent

/-! ## Answers with a mark -/

/-- It says something and asks for the echo, all in the chunk with the mark. -/
def Chunk.speaking : Chunk where
  message := some ⟨.assistant, some "Let me see.", some [.ofFunction "echo" .empty]⟩
  done := true

namespace Turn

/-- The first mark of the end comes with the chunk `last`, behind the chunks `before`. Anything may
follow. -/
inductive Marked (before : List Chunk) (last : Chunk) : Turn → Prop
  | intro (rest : List StreamItem) (hangs : Bool) (hb : ∀ c ∈ before, c.done = false)
      (hl : last.done = true) :
      Marked before last (.streamed (before.map .ok ++ .ok last :: rest) hangs)

/-- The answers are the same, or differ only behind the mark of the end. -/
def SameToMark (t t' : Turn) : Prop :=
  t = t' ∨ ∃ before last, t.Marked before last ∧ t'.Marked before last

namespace Marked

variable {before : List Chunk} {last : Chunk} {t : Turn}

theorem taken_eq (hb : ∀ c ∈ before, c.done = false) (hl : last.done = true)
    (rest : List StreamItem) :
    StreamItem.taken (before.map .ok ++ .ok last :: rest) = before ++ [last] := by
  induction before with
  | nil => simp [StreamItem.taken, hl]
  | cons c before ih =>
      obtain ⟨hc, hb⟩ := List.forall_mem_cons.mp hb
      simp [StreamItem.taken, hc, ih hb]

theorem reading_eq (hb : ∀ c ∈ before, c.done = false) (hl : last.done = true)
    (rest : List StreamItem) (hangs : Bool) :
    StreamItem.reading hangs (before.map .ok ++ .ok last :: rest) = .finished () := by
  induction before with
  | nil => simp [StreamItem.reading, hl]
  | cons c before ih =>
      obtain ⟨hc, hb⟩ := List.forall_mem_cons.mp hb
      simpa [StreamItem.reading, hc] using ih hb

theorem deltas_eq (h : t.Marked before last) : t.deltas = Gathering.deltas (before ++ [last]) := by
  cases h with
  | intro rest hangs hb hl => rw [deltas, taken_eq hb hl]

theorem outcome_eq (h : t.Marked before last) :
    t.outcome = .finished (.ofGathering (Gathering.empty.pushAll (before ++ [last]))) := by
  cases h with
  | intro rest hangs hb hl => rw [outcome, reading_eq hb hl, taken_eq hb hl]

end Marked

end Turn

namespace Agent

open Turn (Marked SameToMark)

/-! ## What comes behind the mark -/

/-- What is taken in ends with the mark. -/
theorem gather_marked {last : Chunk} (hl : last.done = true) (g : Gathering) (before : List Chunk)
    (rest rest' : List StreamItem) (hangs hangs' : Bool) :
    gather hangs g (before.map .ok ++ .ok last :: rest) =
      gather hangs' g (before.map .ok ++ .ok last :: rest') := by
  induction before generalizing g with
  | nil => simp [gather, Gathering.push, hl]
  | cons c before ih => simp only [List.map_cons, List.cons_append, gather, ih]

theorem turn_of_sameToMark {t t' : Turn} (h : t.SameToMark t') (q : BackendRequest) :
    turn q t' = turn q t := by
  rcases h with rfl | ⟨before, last, ⟨rest, hangs, _, hl⟩, ⟨rest', hangs', _, _⟩⟩
  · rfl
  · simp only [turn, gather_marked hl .empty before rest' rest hangs' hangs]

theorem run_of_sameToMark {a : Agent} {backend : Backend}
    (h : ∀ n q, (a.backend n q).SameToMark (backend n q)) (r : ChatRequest) :
    ({ a with backend := backend } : Agent).run r = a.run r :=
  run_agree (fun n _ q => turn_of_sameToMark (h n q) q) r

/-! ## What comes with it -/

/-- What an answer brings about: its text is passed on, and where it asks for tools, they are
announced and used. -/
theorem Course.told {a : Agent} {model : String} {left count : Nat} {messages : Conversation}
    {rounds : List Round} {close : Close} (h : Course a model left count messages rounds close)
    {sofar later : List Action} {q : BackendRequest} {reply : Reply}
    (hq : rounds.flatMap Round.actions ++ close.actions = sofar ++ .ask q :: later)
    (ho : (a.backend (count + (Action.requests sofar).length) q).outcome = .finished reply) :
    let deltas := (a.backend (count + (Action.requests sofar).length) q).deltas
    (reply.toolCalls = [] → later = Action.emits (deltas.map .content ++ [.done none])) ∧
      (reply.toolCalls ≠ [] →
        Action.emits (deltas.map .content ++ reply.toolCalls.map .ofCall) ++
          .heed :: ((a.executor (count + (Action.requests sofar).length)).executeAll
            reply.toolCalls).steps.map .ofStep <+: later) := by
  intro deltas
  obtain ⟨left', messages', later', hcourse, hlater⟩ := h.from_ask hq
  cases hcourse with
  | capped => cases hlater
  | silent ho' | failed ho' =>
      cases hlater
      cases ho'.symm.trans ho
  | completed ho' hc =>
      cases hlater
      cases ho'.symm.trans ho
      rw [Turn.calls_of_outcome ho'] at hc
      exact ⟨fun _ => rfl, fun hne => absurd hc hne⟩
  | stuck ho' hc hr =>
      cases hlater
      cases ho'.symm.trans ho
      rw [Turn.calls_of_outcome ho'] at hc ⊢
      exact ⟨fun he => absurd he hc, fun _ => List.prefix_rfl⟩
  | round ho' hc hr hrest =>
      rw [List.flatMap_cons, List.append_assoc] at hlater
      cases hlater
      cases ho'.symm.trans ho
      rw [Turn.calls_of_outcome ho'] at hc
      refine ⟨fun he => absurd he hc, fun _ => ?_⟩
      simp only [Round.body, Round.work, roundOf, Turn.calls_of_outcome ho', ← Action.emits_append]
      exact (List.prefix_append ..).trans (List.prefix_append ..)

/-- The tools that the chunk with the mark asks for are those of the reply, unless a chunk before it
asks for some. -/
theorem toolCalls_of_last {before : List Chunk} {last : Chunk} {m : ChunkMessage}
    (hbefore : ∀ c ∈ before, ∀ k ∈ c.message, k.calls = []) (hm : last.message = some m)
    (hasks : m.calls ≠ []) :
    (Reply.ofGathering (Gathering.empty.pushAll (before ++ [last]))).toolCalls = m.toolCallsOf := by
  have hsilent : (before.filterMap (·.message)).find? (·.calls ≠ []) = none := by
    rw [List.find?_eq_none]
    intro k hk
    obtain ⟨c, hc, hck⟩ := List.mem_filterMap.mp hk
    simpa using hbefore c hc k hck
  have hfirst : ChunkMessage.first ((before ++ [last]).filterMap (·.message)) = some m := by
    rw [ChunkMessage.first, List.filterMap_append, List.find?_append, hsilent]
    simp [hm, hasks]
  rw [Reply.toolCalls, Reply.message_ofGathering, hfirst]
  rfl

/-- What a backend sends behind the mark of the end makes no difference to a run, whoever follows
it. What comes with the mark does: all text up to there is passed on, and the tools are used that
the kept message asks for, which may be the last. -/
theorem follow_of_sameToMark {a : Agent} {backend : Backend}
    (h : ∀ n q, (a.backend n q).SameToMark (backend n q)) (r : ChatRequest) :
    (∀ (c : Client) (t : Trace),
      (({ a with backend := backend } : Agent).run r).follow c t = (a.run r).follow c t) ∧
    ∀ sofar q later before last, (a.run r).actions = sofar ++ .ask q :: later →
      (a.backend (Action.requests sofar).length q).Marked before last →
        let deltas := (before ++ [last]).filterMap Gathering.delta?
        let calls := (Reply.ofGathering (Gathering.empty.pushAll (before ++ [last]))).toolCalls
        (calls = [] → later = Action.emits (deltas.map .content ++ [.done none])) ∧
        (calls ≠ [] → Action.emits (deltas.map .content ++ calls.map .ofCall) ++
          .heed :: ((a.executor (Action.requests sofar).length).executeAll calls).steps.map .ofStep <+:
            later) ∧
        ((∀ c ∈ before, ∀ m ∈ c.message, m.calls = []) →
          ∀ m ∈ last.message, m.calls ≠ [] → calls = m.toolCallsOf) := by
  refine ⟨fun c t => congrArg (·.follow c t) (run_of_sameToMark h r), ?_⟩
  intro sofar q later before last hq hmarked deltas calls
  rcases a.run_cases r with hrun | ⟨rounds, close, hcourse, hactions, -⟩
  · rw [hrun] at hq
    simp at hq
  · have hmarked : (a.backend (0 + (Action.requests sofar).length) q).Marked before last := by
      rwa [Nat.zero_add]
    obtain ⟨hdone, hused⟩ := hcourse.told (hactions.symm.trans hq) hmarked.outcome_eq
    rw [hmarked.deltas_eq] at hdone hused
    rw [Nat.zero_add] at hused
    exact ⟨hdone, hused, fun hbefore m hm hasks => toolCalls_of_last hbefore hm hasks⟩

theorem follow_of_sameToMark_speaking :
    let agent (rest : List StreamItem) (hangs : Bool) :=
      ofRegistry ⟨"Be brief.", 1, .sequential⟩ (fun _ _ => .streamed (.ok .speaking :: rest) hangs)
        .echoing
    let q := (agent [] true).asked "small" [.system "Be brief.", .user "Hello!"]
    let call : ToolCall := ⟨"call_0", "echo", .empty⟩
    ((agent [.ok .last, .error (.stream "reset")] false).run .hello).follow .patient .empty =
        ((agent [] true).run .hello).follow .patient .empty ∧
      ∃ more, ((agent [] true).run .hello).actions =
        [.heed, .ask q, .emit (.content "Let me see."), .emit (.ofCall call), .heed,
          .step (.start call), .step (.finish call)] ++ more := by
  intro agent q call
  have hmarked (rest : List StreamItem) (hangs : Bool) :
      Marked [] .speaking (.streamed (.ok .speaking :: rest) hangs) :=
    .intro rest hangs nofun rfl
  obtain ⟨hfollow, hcounts⟩ := @follow_of_sameToMark (agent [] true)
    (agent [.ok .last, .error (.stream "reset")] false).backend
    (fun _ _ => .inr ⟨[], .speaking, hmarked [] true, hmarked _ false⟩) .hello
  refine ⟨hfollow .patient .empty, ?_⟩
  obtain ⟨more, hmore⟩ := (hcounts [.heed] q _ [] .speaking rfl (hmarked [] true)).2.1 (by decide)
  exact ⟨more, (congrArg ([Action.heed, Action.ask q] ++ ·) hmore).symm⟩

end Agent

end ChatAgent
