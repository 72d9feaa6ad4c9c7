import ChatAgent.Event.Channel
import ChatAgent.Proofs.Grammar
import ChatAgent.Server.Router

/-!
# What arrives

The chat endpoint refuses a body that is no request or has no messages. For any other it begins a
run that tells its events into a channel, out of which the response is written: all events arrive,
in order, however few the channel can hold and however the run and its reader take turns
(`Server.handle_of_chat`).
-/

namespace ChatAgent

variable {α : Type}

/-! ## Channels -/

namespace Channel

variable {c c' : Channel} {e : Event}

theorem of_new? {capacity : Nat} (h : new? capacity = some c) :
    0 < capacity ∧ c = ⟨capacity, [], true⟩ := by
  simp only [new?] at h
  split at h
  · cases h
  · cases h
    exact ⟨Nat.pos_of_ne_zero ‹_›, rfl⟩

theorem of_emit_accepted (h : c.emit e = (.accepted, c')) :
    c.queued.length < c.capacity ∧ c' = { c with queued := c.queued ++ [e] } := by
  simp only [emit] at h
  split at h
  · cases h
  · split at h
    · cases h
      exact ⟨‹_›, rfl⟩
    · cases h

theorem of_receive_event (h : c.receive = (.event e, c')) :
    c.queued = e :: c'.queued ∧ c' = { c with queued := c'.queued } := by
  simp only [receive] at h
  split at h
  · cases h
  · split at h
    · rename_i he
      cases h
      exact ⟨he, rfl⟩
    · cases h

theorem emit_of_room (hr : c.hasReader = true) (h : c.queued.length < c.capacity) (e : Event) :
    c.emit e = (.accepted, { c with queued := c.queued ++ [e] }) := by
  simp [emit, closed, hr, h]

theorem receive_of_queued {es : List Event} (hr : c.hasReader = true) (h : c.queued = e :: es) :
    c.receive = (.event e, { c with queued := es }) := by
  simp [receive, closed, hr, h]

end Channel

/-! ## Events on their way -/

/-- What is left of a process that tells its events into a channel, the channel, and what has been
read out of it. -/
structure Delivery (α : Type) where
  rest : Process α
  channel : Channel
  read : List Event

namespace Delivery

/-- Nothing has been done yet. -/
def start (p : Process α) (c : Channel) : Delivery α := ⟨p, c, []⟩

/-- One move of the process or of the reader, who never goes away. A process whose event does not
fit into the channel has to wait. -/
inductive Step : Delivery α → Delivery α → Prop
  | works {a : Action} {next : Unit → Process α} {c : Channel} {read : List Event}
      (ha : a.event? = none) : Step ⟨.act a next, c, read⟩ ⟨next (), c, read⟩
  | sends {e : Event} {next : Unit → Process α} {c c' : Channel} {read : List Event}
      (h : c.emit e = (.accepted, c')) : Step ⟨.act (.emit e) next, c, read⟩ ⟨next (), c', read⟩
  | reads {p : Process α} {c c' : Channel} {e : Event} {read : List Event}
      (h : c.receive = (.event e, c')) : Step ⟨p, c, read⟩ ⟨p, c', read ++ [e]⟩

/-- So many moves, whoever makes them. -/
inductive Path : Nat → Delivery α → Delivery α → Prop
  | nil (d : Delivery α) : Path 0 d d
  | snoc {n : Nat} {d d' d'' : Delivery α} (h : Path n d d') (hs : d'.Step d'') : Path (n + 1) d d''

/-- The process has come to its end, and its last event has been read. -/
def Complete (d : Delivery α) : Prop :=
  ((∃ a, d.rest = .done a) ∨ ∃ f, d.rest = .fail f) ∧ d.channel.queued = []

/-- How many moves are left: one for each action, and one more to read each event. -/
def left (d : Delivery α) : Nat :=
  d.rest.actions.length + (Action.events d.rest.actions).length + d.channel.queued.length

/-- What holds all along for a process through a channel: the reader is there, no event is lost or
overtaken, and the channel is never overfull. -/
structure Sound (p : Process α) (c : Channel) (d : Delivery α) : Prop where
  hasReader : d.channel.hasReader = true
  capacity_eq : d.channel.capacity = c.capacity
  fits : d.channel.queued.length ≤ c.capacity
  told : d.read ++ (d.channel.queued ++ Action.events d.rest.actions) = Action.events p.actions
  ending : d.rest.ending = p.ending

variable {p : Process α} {c : Channel} {d d' : Delivery α}

theorem sound_start {capacity : Nat} (hc : Channel.new? capacity = some c) :
    Sound p c (start p c) := by
  obtain ⟨-, rfl⟩ := Channel.of_new? hc
  exact ⟨rfl, rfl, Nat.zero_le _, rfl, rfl⟩

theorem Step.sound (hs : d.Step d') (h : Sound p c d) : Sound p c d' := by
  obtain ⟨hreader, hcapacity, hfits, htold, hending⟩ := h
  cases hs with
  | works ha =>
      refine ⟨hreader, hcapacity, hfits, ?_, hending⟩
      rwa [Process.actions_act, Action.events_cons, ha] at htold
  | @sends e _ c₁ _ _ he =>
      obtain ⟨hroom, rfl⟩ := Channel.of_emit_accepted he
      refine ⟨hreader, hcapacity, ?_, by simpa using htold, hending⟩
      rw [List.length_append, ← hcapacity]
      exact hroom
  | reads hr =>
      obtain ⟨hqueued, hc'⟩ := Channel.of_receive_event hr
      rw [hc']
      refine ⟨hreader, hcapacity, ?_, by simpa [hqueued] using htold, hending⟩
      simp only [hqueued, List.length_cons] at hfits
      exact Nat.le_of_succ_le hfits

theorem Step.left_eq (hs : d.Step d') : d.left = d'.left + 1 := by
  cases hs with
  | works ha =>
      simp only [left, Process.actions_act, List.length_cons, Action.events_cons, ha,
        Option.toList_none, List.nil_append]
      omega
  | sends he =>
      obtain ⟨-, rfl⟩ := Channel.of_emit_accepted he
      simp only [left, Process.actions_act, Action.events_cons, Action.event?, Option.toList_some,
        List.length_append, List.length_cons, List.length_nil]
      omega
  | reads hr =>
      obtain ⟨hqueued, -⟩ := Channel.of_receive_event hr
      simp only [left, hqueued, List.length_cons]
      omega

theorem Sound.progress (h : Sound p c d) (hc : 0 < c.capacity) (hp : p.ending ≠ .hung)
    (hd : ¬d.Complete) : ∃ d', d.Step d' := by
  obtain ⟨rest, channel, read⟩ := d
  -- what is held can be read, and where nothing is held there is room for the next event
  cases hq : channel.queued with
  | cons e queued => exact ⟨_, .reads (Channel.receive_of_queued h.hasReader hq)⟩
  | nil =>
      have hroom : channel.queued.length < channel.capacity := by
        rw [hq, h.capacity_eq]
        exact hc
      cases rest with
      | done a => exact absurd ⟨.inl ⟨a, rfl⟩, hq⟩ hd
      | fail f => exact absurd ⟨.inr ⟨f, rfl⟩, hq⟩ hd
      | hang => exact absurd h.ending.symm hp
      | act a next =>
          cases a with
          | emit e => exact ⟨_, .sends (Channel.emit_of_room h.hasReader hroom e)⟩
          | heed => exact ⟨_, .works rfl⟩
          | ask r => exact ⟨_, .works rfl⟩
          | step s => exact ⟨_, .works rfl⟩

theorem Sound.read_prefix (h : Sound p c d) : d.read <+: Action.events p.actions :=
  ⟨_, h.told⟩

theorem Sound.read_eq (h : Sound p c d) (hd : d.Complete) : d.read = Action.events p.actions := by
  obtain ⟨hover, hqueued⟩ := hd
  have hrest : d.rest.actions = [] := by
    rcases hover with ⟨a, hrest⟩ | ⟨f, hrest⟩ <;> simp [hrest]
  simpa [hqueued, hrest] using h.told

theorem Path.sound {n : Nat} (hp : Path n d d') (h : Sound p c d) : Sound p c d' := by
  induction hp with
  | nil => exact h
  | snoc _ hs ih => exact hs.sound (ih h)

theorem Path.left_eq {n : Nat} (hp : Path n d d') : d.left = d'.left + n := by
  induction hp with
  | nil => rfl
  | snoc _ hs ih => rw [ih, hs.left_eq, Nat.add_assoc, Nat.add_comm 1]

/-- However the process and the reader take turns, they go on until the process has come to its end
and all of its events have been read. -/
theorem delivers {capacity : Nat} (hc : Channel.new? capacity = some c) (hp : p.ending ≠ .hung)
    {n : Nat} (h : Path n (start p c) d) :
    d.channel.queued.length ≤ capacity ∧ d.read <+: Action.events p.actions ∧
      n ≤ p.actions.length + (Action.events p.actions).length ∧
      (¬d.Complete → ∃ d', d.Step d') ∧ (d.Complete → d.read = Action.events p.actions) := by
  have hsound := h.sound (sound_start hc)
  obtain ⟨hpositive, rfl⟩ := Channel.of_new? hc
  refine ⟨hsound.fits, hsound.read_prefix, ?_, hsound.progress hpositive hp, hsound.read_eq⟩
  have hleft := h.left_eq
  simp only [left, start, List.length_nil] at hleft
  omega

end Delivery

/-! ## The chat endpoint -/

/-- A listener that takes everything and never goes away. -/
def Listener.collecting : Listener := ⟨fun _ => true, fun _ => false⟩

theorem Process.watch_collecting (p : Process α) :
    p.watch .collecting [] = (p.actions, p.ending) :=
  watch_undisturbed fun _ _ => ⟨rfl, rfl⟩

namespace Chat

theorem request?_eq_none {body : List UInt8} :
    request? body = none ↔
      ∀ r, Json.readBytes? ChatRequest.read body = some r → r.messages = [] := by
  simp [request?, Option.filter_eq_none_iff]

theorem request?_eq_some {body : List UInt8} {r : ChatRequest} :
    request? body = some r ↔
      Json.readBytes? ChatRequest.read body = some r ∧ r.messages ≠ [] := by
  simp [request?, Option.filter_eq_some_iff]

theorem ending_response (id : String) {done : Trace × Ending RunOutcome} (h : done.2 ≠ .hung) :
    (response id done).ending = .whole := by
  obtain ⟨trace, ending⟩ := done
  cases ending with
  | hung => exact absurd rfl h
  | _ => rfl

/-- Answers a request to chat that is not refused, or refuses it. -/
theorem handle_cases {agent : Agent} {c : Client} {id : String} {body : List UInt8} :
    ((∀ r, Json.readBytes? ChatRequest.read body = some r → r.messages = []) ∧
        handle agent c id body = (.bare 400, .empty)) ∨
      ∃ r, Json.readBytes? ChatRequest.read body = some r ∧ r.messages ≠ [] ∧
        handle agent c id body =
          (response id ((agent.run r).follow c .empty), ((agent.run r).follow c .empty).1) := by
  cases h : request? body with
  | none => exact .inl ⟨request?_eq_none.mp h, by simp only [handle, h]⟩
  | some r =>
      obtain ⟨hread, hne⟩ := request?_eq_some.mp h
      exact .inr ⟨r, hread, hne, by simp only [handle, h, run]⟩

end Chat

namespace Server

theorem handle_full_chat {agent : Agent} {registry : Registry} {url : String} {r : Http.Request}
    (hmethod : r.method = "POST") (hpath : r.path ∈ ["/api/chat", "/chat"])
    (hbody : r.body.length ≤ 2 * 1024 * 1024) (p : Http.Peer) (c : Client) (id : String) :
    (full agent registry url).handle p c id r =
      ⟨some (opened (Chat.handle agent c id r.body).1), (Chat.handle agent c id r.body).2, []⟩ := by
  have hroute : Route.paths.lookup r.path = some .chat := by
    rcases List.mem_pair.mp hpath with h | h <;> rw [h] <;> rfl
  have hshort : ¬maxBody < r.body.length := Nat.not_lt.mpr hbody
  simp [handle, full, dispatch, hroute, Route.takes, serve, hmethod, withBody, hshort]

/-- Where answers settle, tools finish and none of them makes the client go away: a request to chat
is refused, and nothing is done for it, just if its body is no request or has no messages. Otherwise
the response has the lines of all events of the run, the last of them saying that it is done. They
arrive through any channel that can hold something: however the run and its reader take turns,
neither keeps the other waiting for ever, and what has been read in the end is the body. -/
theorem handle_of_chat {config : AgentConfig} {backend : Backend} {registry : Registry}
    (hs : ∀ n q, (backend n q).Settles) (hf : registry.Finishes) (hd : registry.Discreet)
    (url : String) (p : Http.Peer) (id : String) {request : Http.Request}
    (hmethod : request.method = "POST") (hpath : request.path ∈ ["/api/chat", "/chat"])
    (hbody : request.body.length ≤ 2 * 1024 * 1024) :
    let agent := Agent.ofRegistry config backend registry
    let handled := (full agent registry url).handle p .patient id request
    let refused := ∀ r, Json.readBytes? ChatRequest.read request.body = some r → r.messages = []
    ∃ response, handled.response = some response ∧ handled.forwarded = [] ∧
      (response.status = 400 ∧ response.body = [] ∧ handled.trace = .empty ↔ refused) ∧
      (¬refused → ∃ r, Json.readBytes? ChatRequest.read request.body = some r ∧
        response.status = 200 ∧ response.ending = .whole ∧
        let history := ((agent.run r).watch .collecting []).1
        let told := Action.events history
        response.body = told.flatMap (fun e => Text.bytes e.line) ∧
        (∃ before reason, told = before ++ [.done reason]) ∧
        ∀ capacity channel, Channel.new? capacity = some channel →
          ∀ n d, Delivery.Path n (.start (agent.run r) channel) d →
            d.channel.queued.length ≤ capacity ∧ d.read <+: told ∧
            n ≤ history.length + told.length ∧ (¬d.Complete → ∃ d', d.Step d') ∧
            (d.Complete → d.read.flatMap (fun e => Text.bytes e.line) = response.body)) := by
  intro agent handled refused
  have hhandled : handled = _ := handle_full_chat hmethod hpath hbody p .patient id
  rw [hhandled]
  refine ⟨_, rfl, rfl, ?_⟩
  rcases Chat.handle_cases with ⟨hrefused, hchat⟩ | ⟨r, hread, hne, hchat⟩
  · rw [hchat]
    exact ⟨⟨fun _ => hrefused, fun _ => ⟨rfl, rfl, rfl⟩⟩, fun h => absurd hrefused h⟩
  · have hdismiss := Agent.dismiss_not_mem_run hd config backend r
    obtain ⟨hending, hlast⟩ := Agent.done_last_of_run config hs hf hne
    rw [hchat, Process.follow_patient hdismiss]
    refine ⟨⟨nofun, fun h => absurd (h r hread) hne⟩,
      fun _ => ⟨r, hread, rfl, Chat.ending_response id hending, ?_⟩⟩
    rw [Process.watch_collecting]
    refine ⟨rfl, hlast, fun capacity channel hc n d hpath => ?_⟩
    obtain ⟨hfits, hpart, hbound, hprogress, hall⟩ := Delivery.delivers hc hending hpath
    exact ⟨hfits, hpart, hbound, hprogress, fun h => by rw [hall h]; rfl⟩

/-- A conversation of one message is carried on, and one of none is not. -/
theorem handle_of_chat_hello :
    let server := full (.ofRegistry ⟨"Be brief.", 2, .sequential⟩ .echoing .echoing) .echoing ""
    let handled (messages : Conversation) := server.handle .refuses .patient "id"
      ⟨"POST", "/chat", [], Text.bytes (ChatRequest.toJson ⟨"small", messages, true⟩).text⟩
    (∃ response, (handled [.user "Hello!"]).response = some response ∧ response.status = 200 ∧
      ∃ before reason, response.body = before ++ Text.bytes (Event.done reason).line) ∧
    ∃ response, (handled []).response = some response ∧ response.status = 400 := by
  intro server handled
  have hpath (body : List UInt8) :
      Http.Request.path ⟨"POST", "/chat", [], body⟩ ∈ ["/api/chat", "/chat"] := by
    have hchat : Http.Request.path ⟨"POST", "/chat", [], body⟩ = "/chat" := by
      simp only [Http.Request.path]
      decide +kernel
    simp [hchat]
  have hchat (messages : Conversation) (hbody) := @handle_of_chat ⟨"Be brief.", 2, .sequential⟩ _ _
    Backend.settles_echoing Registry.finishes_echoing Registry.discreet_echoing "" .refuses "id"
    ⟨"POST", "/chat", [], Text.bytes (ChatRequest.toJson ⟨"small", messages, true⟩).text⟩ rfl
    (hpath _) hbody
  constructor
  · obtain ⟨response, hresponse, -, -, hrun⟩ := hchat [.user "Hello!"] (by decide +kernel)
    have hread : Json.readBytes? ChatRequest.read
        (Text.bytes (ChatRequest.toJson ⟨"small", [.user "Hello!"], true⟩).text) =
          some ⟨"small", [.user "Hello!"], true⟩ := by
      decide +kernel
    obtain ⟨r, -, hstatus, -, hbody, ⟨before, reason, htold⟩, -⟩ :=
      hrun fun h => List.cons_ne_nil _ _ (h _ hread)
    refine ⟨response, hresponse, hstatus, before.flatMap (Text.bytes ·.line), reason, ?_⟩
    rw [hbody, htold, List.flatMap_append, List.flatMap_singleton]
  · obtain ⟨response, hresponse, -, hrefused, -⟩ := hchat [] (by decide +kernel)
    have hread : Json.readBytes? ChatRequest.read
        (Text.bytes (ChatRequest.toJson ⟨"small", [], true⟩).text) = some ⟨"small", [], true⟩ := by
      decide +kernel
    refine ⟨response, hresponse, (hrefused.mpr fun r hr => ?_).1⟩
    cases hread.symm.trans hr
    rfl

end Server

end ChatAgent
