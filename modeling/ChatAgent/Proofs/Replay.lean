import ChatAgent.Proofs.Grammar

/-!
# The conversation as a replay of the events

From what a client is told it can make up an account of the turns in which tools were used. The
account holds all that the model is told of these turns: the conversation of every request is the
client's own, continued by what the account says (`Agent.conversation_of_run`).
-/

namespace ChatAgent

/-! ## Accounts -/

def Block.empty : Block := ⟨[], [], []⟩

/-- The messages that tell of a turn in which tools were used. -/
def Block.replay (b : Block) : Conversation :=
  ⟨.assistant, some (String.join b.deltas), some b.calls, none⟩ ::
    b.results.map fun r =>
      { role := .tool
        content := some (match r.error with
          | some error => "Error: " ++ error
          | none => r.content)
        toolCalls := none
        toolCallId := some r.callId }

theorem Block.replay_eq_messages (b : Block) : b.replay = b.messages := rfl

/-- What a client makes of what it is told. -/
structure Account where
  /-- The turns in which tools were used. -/
  turns : List Block
  /-- What it has been told since. -/
  last : Block

namespace Account

/-- Results end a turn, and what comes after them belongs to the next one. -/
def settle (a : Account) : Account :=
  if a.last.results.isEmpty then a else ⟨a.turns ++ [a.last], .empty⟩

/-- Takes an event down. -/
def hear (a : Account) : Event → Account
  | .content delta =>
    ⟨a.settle.turns, { a.settle.last with deltas := a.settle.last.deltas ++ [delta] }⟩
  | .toolCall id name arguments =>
    ⟨a.settle.turns, { a.settle.last with calls := a.settle.last.calls ++ [⟨id, name, arguments⟩] }⟩
  | .toolResult id text error =>
    ⟨a.turns, { a.last with results := a.last.results ++ [⟨id, text, error⟩] }⟩
  | .error _ | .done _ => a.settle

def ofEvents (es : List Event) : Account := (es.foldl hear ⟨[], .empty⟩).settle

/-- The account when other turns have come before. -/
def behind (turns : List Block) (a : Account) : Account := ⟨turns ++ a.turns, a.last⟩

theorem settle_settle (a : Account) : a.settle.settle = a.settle := by
  by_cases h : a.last.results = []
  · simp [settle, h]
  · simp [settle, h, Block.empty]

theorem settle_behind (turns : List Block) (a : Account) :
    (a.behind turns).settle = a.settle.behind turns := by
  by_cases h : a.last.results = []
  · simp [settle, behind, h]
  · simp [settle, behind, h]

theorem hear_behind (turns : List Block) (a : Account) (e : Event) :
    (a.behind turns).hear e = (a.hear e).behind turns := by
  cases e with
  | toolResult => rfl
  | content | toolCall =>
      simp only [hear, settle_behind]
      rfl
  | error | done => exact settle_behind turns a

theorem foldl_hear_behind (turns : List Block) (a : Account) (es : List Event) :
    es.foldl hear (a.behind turns) = (es.foldl hear a).behind turns := by
  induction es generalizing a with
  | nil => rfl
  | cons e es ih => rw [List.foldl_cons, hear_behind, ih, List.foldl_cons]

/-! What a turn with tools tells is taken down as it is. -/

theorem foldl_hear_deltas {turns : List Block} {b : Block} (hb : b.results = [])
    (deltas : List String) :
    (deltas.map Event.content).foldl hear ⟨turns, b⟩ =
      ⟨turns, { b with deltas := b.deltas ++ deltas }⟩ := by
  induction deltas generalizing b with
  | nil => simp
  | cons delta deltas ih =>
      have hsettle : settle ⟨turns, b⟩ = ⟨turns, b⟩ := by simp [settle, hb]
      simp only [List.map_cons, List.foldl_cons, hear, hsettle]
      rw [ih (b := { b with deltas := b.deltas ++ [delta] }) hb]
      simp

theorem foldl_hear_calls {turns : List Block} {b : Block} (hb : b.results = [])
    (calls : List ToolCall) :
    (calls.map Event.ofCall).foldl hear ⟨turns, b⟩ =
      ⟨turns, { b with calls := b.calls ++ calls }⟩ := by
  induction calls generalizing b with
  | nil => simp
  | cons call calls ih =>
      have hsettle : settle ⟨turns, b⟩ = ⟨turns, b⟩ := by simp [settle, hb]
      simp only [List.map_cons, List.foldl_cons, Event.ofCall, hear, hsettle]
      rw [ih (b := { b with calls := b.calls ++ [call] }) hb]
      simp

theorem foldl_hear_results (turns : List Block) (b : Block) (results : List ToolResult) :
    (results.map Event.ofResult).foldl hear ⟨turns, b⟩ =
      ⟨turns, { b with results := b.results ++ results }⟩ := by
  induction results generalizing b with
  | nil => simp
  | cons result results ih =>
      rw [List.map_cons, List.foldl_cons, Event.ofResult, hear, ih]
      simp

theorem foldl_hear_block (b : Block) : b.events.foldl hear ⟨[], .empty⟩ = ⟨[], b⟩ := by
  rw [Block.events, List.foldl_append, List.foldl_append, foldl_hear_deltas rfl,
    foldl_hear_calls rfl, foldl_hear_results]
  simp [Block.empty]

theorem ofEvents_completed (deltas : List String) :
    ofEvents (deltas.map .content ++ [.done none]) = ⟨[], ⟨deltas, [], []⟩⟩ := by
  rw [ofEvents, List.foldl_append, foldl_hear_deltas rfl]
  rfl

theorem replay_grows (base : Conversation) {turns : List Block} {i j : Nat} (hij : i < j)
    (hi : i < turns.length) :
    base ++ (turns.take i).flatMap Block.replay <+: base ++ (turns.take j).flatMap Block.replay ∧
      base ++ (turns.take i).flatMap Block.replay ≠
        base ++ (turns.take j).flatMap Block.replay := by
  obtain ⟨more, hmore⟩ := List.take_prefix_take_left (l := turns) hij
  rw [← hmore, List.take_succ_eq_append_getElem hi]
  simp only [List.flatMap_append, List.flatMap_singleton, List.append_assoc, ne_eq]
  constructor
  · exact (List.prefix_append_right_inj _).mpr (List.prefix_append ..)
  · intro he
    have hlen := congrArg List.length he
    simp [Block.replay] at hlen

/-! ## Accounts of several turns -/

/-- The events are not told as the results of what came before them. -/
def Fresh (es : List Event) : Prop := ∀ id text error, es.head? ≠ some (.toolResult id text error)

theorem Fresh.mono {es fs : List Event} (h : Fresh fs) (hp : es <+: fs) : Fresh es := by
  obtain ⟨rest, rfl⟩ := hp
  cases es with
  | nil => exact fun _ _ _ => nofun
  | cons e es => exact h

theorem fresh_close (c : Close) : Fresh c.events :=
  fun id text error he => c.toolResult_not_mem id text error (List.mem_of_head? he)

theorem settle_foldl_hear {es : List Event} (h : Fresh es) (a : Account) :
    (es.foldl hear a).settle = (es.foldl hear a.settle).settle := by
  cases es with
  | nil => exact (settle_settle a).symm
  | cons e es =>
      have hhear : a.hear e = a.settle.hear e := by
        cases e with
        | toolResult id text error => exact absurd rfl (h id text error)
        | _ => simp only [hear, settle_settle]
      rw [List.foldl_cons, List.foldl_cons, hhear]

theorem fresh_block {b : Block} (h : b.Answered) (es : List Event) : Fresh (b.events ++ es) := by
  intro id text error
  cases hd : b.deltas with
  | cons delta deltas => simp [Block.events, hd]
  | nil =>
      obtain ⟨call, calls, hc⟩ := List.exists_cons_of_ne_nil h.calls_ne_nil
      simp [Block.events, hd, hc, Event.ofCall]

theorem results_ne_nil {b : Block} (h : b.Answered) : b.results ≠ [] := by
  intro hr
  have hids := h.callIds_eq
  rw [hr, List.map_nil, eq_comm, List.map_eq_nil_iff] at hids
  exact h.calls_ne_nil hids

/-- The turns in which tools are used are told apart. -/
theorem ofEvents_blocks {blocks : List Block} (hb : ∀ b ∈ blocks, b.Answered) {es : List Event}
    (h : Fresh es) :
    ofEvents (blocks.flatMap Block.events ++ es) = (ofEvents es).behind blocks := by
  induction blocks with
  | nil => rfl
  | cons b blocks ih =>
      have hfirst := hb b List.mem_cons_self
      have hrest : ∀ b ∈ blocks, b.Answered := fun b hm => hb b (List.mem_cons_of_mem _ hm)
      have hfresh : Fresh (blocks.flatMap Block.events ++ es) := by
        cases blocks with
        | nil => exact h
        | cons b' blocks =>
            rw [List.flatMap_cons, List.append_assoc]
            exact fresh_block (hrest b' List.mem_cons_self) _
      have hsettle : settle ⟨[], b⟩ = behind [b] ⟨[], .empty⟩ := by
        simp [settle, behind, results_ne_nil hfirst]
      rw [List.flatMap_cons, List.append_assoc, ofEvents, List.foldl_append, foldl_hear_block,
        settle_foldl_hear hfresh, hsettle, foldl_hear_behind, settle_behind]
      rw [ofEvents] at ih
      rw [ih hrest]
      simp [behind]

example :
    ofEvents [.content "Let me see.", .toolCall "call_0" "echo" .empty, .toolResult "call_0" "" none,
        .content "Done.", .done none] =
      ⟨[⟨["Let me see."], [⟨"call_0", "echo", .empty⟩], [⟨"call_0", "", none⟩]⟩],
        ⟨["Done."], [], []⟩⟩ := rfl

theorem ofEvents_rounds {rounds : List Round} (hr : ∀ r ∈ rounds, r.toBlock.Answered)
    {es : List Event} (h : Fresh es) :
    ofEvents (rounds.flatMap (·.events) ++ es) = (ofEvents es).behind (rounds.map (·.toBlock)) := by
  rw [← ofEvents_blocks (by simpa using hr) h, List.flatMap_map]

end Account

/-! ## Beginnings of a run -/

/-- What begins like the actions of rounds ends within one of them, or after all of them. -/
theorem Round.exists_cut {rounds : List Round} {last h : List Action}
    (hp : h <+: rounds.flatMap Round.actions ++ last) :
    ∃ done rest part, rounds = done ++ rest ∧ h = done.flatMap Round.actions ++ part ∧
      (rest = [] ∧ part <+: last ∨ ∃ r rs, rest = r :: rs ∧ part <+: r.actions) := by
  induction rounds generalizing h with
  | nil => exact ⟨[], [], h, rfl, rfl, .inl ⟨rfl, hp⟩⟩
  | cons r rounds ih =>
      rw [List.flatMap_cons, List.append_assoc] at hp
      rcases List.prefix_or_prefix_of_prefix hp (List.prefix_append r.actions _) with hr | ⟨t, rfl⟩
      · exact ⟨[], r :: rounds, h, rfl, rfl, .inr ⟨r, rounds, rfl, hr⟩⟩
      · rw [List.prefix_append_right_inj] at hp
        obtain ⟨done, rest, part, rfl, rfl, hpart⟩ := ih hp
        exact ⟨r :: done, rest, part, rfl, by simp, hpart⟩

namespace Agent

namespace Course

variable {a : Agent} {model : String} {left count : Nat} {messages : Conversation}
  {rounds : List Round} {close : Close} {registry : Registry} {dispatch : Dispatch}

/-- As far as a run gets, it has made at most one request more than turns have been told, and each
carries what the account says of the turns before it. -/
theorem requests_prefix (h : Course a model left count messages rounds close)
    (he : a.executor = fun _ => .ofRegistry registry dispatch) {history : List Action}
    (hp : history <+: rounds.flatMap Round.actions ++ close.actions) :
    (Action.requests history).length ≤ (Account.ofEvents (Action.events history)).turns.length + 1 ∧
      ∀ i q, (Action.requests history)[i]? = some q →
        q.messages = messages ++
          ((Account.ofEvents (Action.events history)).turns.take i).flatMap Block.replay := by
  obtain ⟨done, rest, part, rfl, rfl, hpart⟩ := Round.exists_cut hp
  have hdone : ∀ r ∈ done, r.toBlock.Answered :=
    fun r hr => h.answered he r (List.mem_append_left _ hr)
  have hfresh : Account.Fresh (Action.events part) := by
    rcases hpart with ⟨-, hpart⟩ | ⟨r, rs, rfl, hpart⟩
    · have hevents := hpart.filterMap Action.event?
      exact (Account.fresh_close close).mono (close.events_actions ▸ hevents)
    · have hevents := hpart.filterMap Action.event?
      have hanswered := h.answered he r (by simp)
      exact (Account.fresh_block hanswered []).mono (by simpa using r.events_actions ▸ hevents)
  have hrequests : Action.requests part <+:
      [a.asked model (messages ++ done.flatMap (·.messages))] := by
    rcases hpart with ⟨rfl, hpart⟩ | ⟨r, rs, rfl, hpart⟩
    · have hask : Action.requests part <+: close.request?.toList :=
        close.requests_actions ▸ hpart.filterMap Action.request?
      rw [List.append_nil] at h
      cases hq : close.request? with
      | none =>
          rw [hq] at hask
          exact hask.trans (List.nil_prefix ..)
      | some q =>
          rw [← h.close_request_eq hq]
          rwa [hq] at hask
    · rw [← h.request_eq]
      exact r.requests_actions ▸ hpart.filterMap Action.request?
  have htold : Account.ofEvents (Action.events (done.flatMap Round.actions ++ part)) =
      (Account.ofEvents (Action.events part)).behind (done.map (·.toBlock)) := by
    rw [Action.events_append, Round.events_flatMap_actions, Account.ofEvents_rounds hdone hfresh]
  rw [htold, Action.requests_append, Round.requests_flatMap_actions]
  constructor
  · have hlen := hrequests.length_le
    simp only [Account.behind, List.length_append, List.length_map, List.length_singleton] at hlen ⊢
    omega
  · intro i q hq
    have hreplay (n : Nat) (hn : n ≤ done.length) :
        ((done.map (·.toBlock) ++ (Account.ofEvents (Action.events part)).turns).take n).flatMap
          Block.replay = (done.take n).flatMap (·.messages) := by
      rw [List.take_append_of_le_length (by simpa using hn), ← List.map_take, List.flatMap_map]
      simp only [Block.replay_eq_messages]
    rw [List.getElem?_append, List.length_map] at hq
    split at hq
    · rename_i hi
      rw [List.getElem?_map, List.getElem?_eq_getElem hi] at hq
      cases hq
      have hsplit : done ++ rest = done.take i ++ done[i] :: (done.drop (i + 1) ++ rest) := by
        rw [← List.cons_append, List.getElem_cons_drop, ← List.append_assoc, List.take_append_drop]
      rw [hsplit] at h
      rw [Account.behind, hreplay i (Nat.le_of_lt hi), h.request_eq]
      rfl
    · rename_i hi
      have hmem := hrequests.subset (List.mem_of_getElem? hq)
      have hlt := (List.getElem?_eq_some_iff.mp hq).1
      have hlen := hrequests.length_le
      rw [List.length_singleton] at hlen
      obtain rfl : i = done.length := by omega
      rw [List.mem_singleton.mp hmem, Account.behind, hreplay _ (Nat.le_refl _), List.take_length]
      rfl

/-- A run that finishes has all of its turns in its conversation, and the text of the last one if it
is complete. -/
theorem outcome_eq (h : Course a model left count messages rounds close)
    (he : a.executor = fun _ => .ofRegistry registry dispatch) {o : RunOutcome}
    (ho : close.ending = .finished o) {told : Account}
    (ht : told = .ofEvents (Action.events (rounds.flatMap Round.actions ++ close.actions))) :
    o.messages = messages ++ told.turns.flatMap Block.replay ++
        (if o.stop = .completed then [.assistant (String.join told.last.deltas)] else []) ∧
      o.finalResponse =
        if o.stop = .completed ∧ String.join told.last.deltas ≠ "" then
          some (String.join told.last.deltas)
        else none := by
  rw [Action.events_append, Round.events_flatMap_actions, Close.events_actions,
    Account.ofEvents_rounds (h.answered he) (Account.fresh_close close)] at ht
  rw [← List.append_nil rounds] at h
  have hrest := h.drop.2
  generalize left - rounds.length = l at hrest
  have hreplay (turns : List Block) :
      (rounds.map (·.toBlock) ++ turns).flatMap Block.replay =
        rounds.flatMap (·.messages) ++ turns.flatMap Block.replay := by
    rw [List.flatMap_append, List.flatMap_map]
    simp only [Block.replay_eq_messages]
  subst ht
  cases hrest <;> cases ho
  case capped =>
    simp only [Account.behind, hreplay]
    exact ⟨by simp [Close.events, Account.ofEvents, Account.hear, Account.settle, Block.empty], rfl⟩
  case completed =>
    simp only [Account.behind, hreplay, Close.events, Account.ofEvents_completed, completion]
    constructor
    · simp
    · split <;> simp_all

end Course

/-- What the model is told of the turns of a run is what the client is told of them. -/
theorem conversation_of_run (config : AgentConfig) (backend : Backend) (registry : Registry)
    (request : ChatRequest) (c : Client) :
    let run := ((ofRegistry config backend registry).run request).follow c .empty
    let told := Account.ofEvents run.1.events
    let base : Conversation :=
      if request.messages.any (·.role = .system) then request.messages
      else ⟨.system, some config.systemPrompt, none, none⟩ :: request.messages
    run.1.requests.map (·.messages) = (List.range run.1.requests.length).map (fun i =>
      base ++ (told.turns.take i).flatMap Block.replay) ∧
    run.1.requests.length ≤ told.turns.length + 1 ∧
    (run.1.requests.map (·.messages)).Pairwise (fun c d => c <+: d ∧ c ≠ d) ∧
    ∀ o, run.2 = .finished o →
      o.messages = base ++ told.turns.flatMap Block.replay ++
        (if o.stop = .completed then [⟨.assistant, some (String.join told.last.deltas), none, none⟩]
          else []) ∧
      o.finalResponse =
        if o.stop = .completed ∧ String.join told.last.deltas ≠ "" then
          some (String.join told.last.deltas)
        else none := by
  intro run told base
  let process := (ofRegistry config backend registry).run request
  rcases run_cases (ofRegistry config backend registry) request with
    hfails | ⟨rounds, close, hcourse, hactions, hending⟩
  · have hrun : run = (.empty, .failed .noMessages) := congrArg (Process.follow c · .empty) hfails
    rw [hrun]
    exact ⟨rfl, Nat.zero_le _, .nil, nofun⟩
  have hrun : run = (.ofHistory (process.watch c.listener []).1, (process.watch c.listener []).2) :=
    process.follow_eq_watch c []
  have hp : (process.watch c.listener []).1 <+: rounds.flatMap Round.actions ++ close.actions :=
    hactions ▸ process.watch_prefix c.listener []
  obtain ⟨hlen, hrequests⟩ := hcourse.requests_prefix rfl hp
  have hlen : run.1.requests.length ≤ told.turns.length + 1 := by
    simp only [told, hrun]
    exact hlen
  have hall : run.1.requests.map (·.messages) = (List.range run.1.requests.length).map fun i =>
      base ++ (told.turns.take i).flatMap Block.replay := by
    refine List.ext_getElem (by simp) fun i hi _ => ?_
    rw [List.length_map] at hi
    simp only [List.getElem_map, List.getElem_range]
    refine (hrequests i run.1.requests[i] ?_).trans ?_
    · rw [← List.getElem?_eq_getElem hi]
      simp only [hrun]
      rfl
    · simp only [told, hrun]
      rfl
  refine ⟨hall, hlen, ?_, fun o ho => ?_⟩
  · rw [hall, List.pairwise_map]
    refine List.pairwise_lt_range.imp_of_mem fun hi hj hij => ?_
    have hj := List.mem_range.mp hj
    exact Account.replay_grows base hij (by omega)
  · obtain ⟨hwhole, hend⟩ := Process.watch_finished (l := c.listener) (p := process) (h := [])
      ((congrArg Prod.snd hrun).symm.trans ho)
    refine hcourse.outcome_eq rfl (hending.symm.trans hend) ?_
    rw [← hactions, ← List.nil_append (Process.actions _), ← hwhole]
    simp only [told, hrun]
    rfl

end Agent

end ChatAgent
