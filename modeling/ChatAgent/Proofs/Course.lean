import ChatAgent.Agent.Run
import ChatAgent.Proofs.Batch
import ChatAgent.Proofs.Process
import ChatAgent.Proofs.Reply
import ChatAgent.Tool.Sample

/-!
# The course of a run

A run goes through rounds, the turns in which tools are used, and then comes to a close.
`Agent.Course` says which rounds and which close there are; `Agent.exists_course` ties them to what
the loop does and to how it ends. What is known of every run is read off its course by induction.
-/

namespace ChatAgent

/-! ## A small agent -/

/-- It asks for the echo once, and then it is done. -/
def Backend.echoing : Backend :=
  .scripted [.chunks [.calls [.ofFunction "echo" .empty]]] (some (.chunks [.content "Done."]))

def Registry.echoing : Registry := .ofList [.echo]

def ChatRequest.hello : ChatRequest := ⟨"small", [.user "Hello!"], true⟩

theorem Backend.settles_echoing (n : Nat) (q : BackendRequest) : (echoing n q).Settles :=
  settles_scripted (by simp [Turn.settles_chunks]) (by simp [Turn.settles_chunks]) n q

theorem Registry.finishes_echoing : Registry.echoing.Finishes :=
  finishes_ofList (by simp [Tool.echo, Activity.finished])

theorem Registry.discreet_echoing : Registry.echoing.Discreet :=
  discreet_ofList (by simp [Tool.echo, Activity.finished])

/-! ## Rounds -/

/-- What the client is told of a turn in which tools are used. -/
structure Block where
  deltas : List String
  calls : List ToolCall
  results : List ToolResult

namespace Block

def events (b : Block) : List Event :=
  b.deltas.map .content ++ b.calls.map .ofCall ++ b.results.map .ofResult

/-- What the turn adds to the conversation. -/
def messages (b : Block) : Conversation :=
  .asking (String.join b.deltas) b.calls :: b.results.map .ofResult

end Block

/-- A turn in which tools are used, from the request to the results. -/
structure Round extends Block where
  request : BackendRequest
  steps : List Step

namespace Round

/-- What follows the request, before the results. -/
def work (r : Round) : List Action :=
  Action.emits (r.deltas.map .content) ++ Action.emits (r.calls.map .ofCall) ++
    .heed :: r.steps.map .ofStep

def body (r : Round) : List Action := r.work ++ Action.emits (r.results.map .ofResult)

def actions (r : Round) : List Action := .heed :: .ask r.request :: r.body

@[simp] theorem events_actions (r : Round) : Action.events r.actions = r.events := by
  simp [actions, body, work, Block.events]

@[simp] theorem requests_actions (r : Round) : Action.requests r.actions = [r.request] := by
  simp [actions, body, work]

@[simp] theorem steps_actions (r : Round) :
    Action.steps r.actions = r.steps.filter (· ≠ .pause) := by
  simp [actions, body, work]

theorem events_flatMap_actions (rs : List Round) :
    Action.events (rs.flatMap actions) = rs.flatMap (·.events) := by
  induction rs with
  | nil => rfl
  | cons r rs ih =>
      rw [List.flatMap_cons, Action.events_append, ih, events_actions, List.flatMap_cons]

theorem requests_flatMap_actions (rs : List Round) :
    Action.requests (rs.flatMap actions) = rs.map request := by
  induction rs with
  | nil => rfl
  | cons r rs ih =>
      rw [List.flatMap_cons, Action.requests_append, ih, requests_actions, List.map_cons,
        List.singleton_append]

end Round

/-! ## Closes -/

/-- What a run does after its last round, and how it ends: the cap is reached, or a turn asks for no
tools, fails or never comes to its end, or the tools of a turn do not. -/
inductive Close where
  | capped (o : RunOutcome)
  | completed (q : BackendRequest) (deltas : List String) (o : RunOutcome)
  | failed (q : BackendRequest) (deltas : List String) (f : Failure)
  | silent (q : BackendRequest) (deltas : List String)
  | stuck (q : BackendRequest) (deltas : List String) (calls : List ToolCall) (steps : List Step)

namespace Close

def events : Close → List Event
  | capped _ => [.done (some .maxIterations)]
  | completed _ deltas _ => deltas.map .content ++ [.done none]
  | failed _ deltas .cancelled => deltas.map .content
  | failed _ deltas f => deltas.map .content ++ [.error f.message, .done none]
  | silent _ deltas => deltas.map .content
  | stuck _ deltas calls _ => deltas.map .content ++ calls.map .ofCall

def actions : Close → List Action
  | c@(capped _) => Action.emits c.events
  | c@(completed q _ _) | c@(failed q _ _) | c@(silent q _) =>
    .heed :: .ask q :: Action.emits c.events
  | c@(stuck q _ _ steps) =>
    .heed :: .ask q :: (Action.emits c.events ++ .heed :: steps.map .ofStep)

def ending : Close → Ending RunOutcome
  | capped o | completed _ _ o => .finished o
  | failed _ _ f => .failed f
  | silent _ _ | stuck _ _ _ _ => .hung

def request? : Close → Option BackendRequest
  | capped _ => none
  | completed q _ _ | failed q _ _ | silent q _ | stuck q _ _ _ => some q

theorem events_failed {q : BackendRequest} {deltas : List String} {f : Failure}
    (hf : f ≠ .cancelled) :
    (failed q deltas f).events = deltas.map .content ++ [.error f.message, .done none] := by
  cases f with
  | cancelled => exact absurd rfl hf
  | _ => rfl

/-- After its rounds a run tells of no more results. -/
theorem toolResult_not_mem (c : Close) (id text : String) (error : Option String) :
    .toolResult id text error ∉ c.events := by
  cases c with
  | failed q deltas f => cases f <;> simp [events]
  | _ => simp [events, Event.ofCall]

@[simp] theorem events_actions (c : Close) : Action.events c.actions = c.events := by
  cases c <;> simp [actions]

@[simp] theorem requests_actions (c : Close) : Action.requests c.actions = c.request?.toList := by
  cases c <;> simp [actions, request?]

end Close

/-! ## Courses -/

namespace Agent

def asked (a : Agent) (model : String) (messages : Conversation) : BackendRequest :=
  ⟨model, messages, a.offers⟩

def answer (a : Agent) (model : String) (count : Nat) (messages : Conversation) : Turn :=
  a.backend count (a.asked model messages)

/-- The round in which the tools of an answer have had these results. -/
def roundOf (a : Agent) (model : String) (count : Nat) (messages : Conversation)
    (results : List ToolResult) : Round where
  deltas := (a.answer model count messages).deltas
  calls := (a.answer model count messages).calls
  results := results
  request := a.asked model messages
  steps := ((a.executor count).executeAll (a.answer model count messages).calls).steps

/-- What comes of a run whose last answer asks for no tools. -/
def completion (a : Agent) (model : String) (count : Nat) (messages : Conversation) : RunOutcome :=
  let text := String.join (a.answer model count messages).deltas
  ⟨messages ++ [.assistant text], count + 1, if text.isEmpty then none else some text, .completed⟩

/-- The rounds and the close of the loop, with so many turns left after so many. -/
inductive Course (a : Agent) (model : String) :
    (left count : Nat) → Conversation → List Round → Close → Prop
  | capped {count messages} :
      Course a model 0 count messages [] (.capped ⟨messages, count, none, .maxIterations⟩)
  | completed {left count messages reply}
      (ho : (a.answer model count messages).outcome = .finished reply)
      (hc : (a.answer model count messages).calls = []) :
      Course a model (left + 1) count messages []
        (.completed (a.asked model messages) (a.answer model count messages).deltas
          (a.completion model count messages))
  | failed {left count messages f} (ho : (a.answer model count messages).outcome = .failed f) :
      Course a model (left + 1) count messages []
        (.failed (a.asked model messages) (a.answer model count messages).deltas f)
  | silent {left count messages} (ho : (a.answer model count messages).outcome = .hung) :
      Course a model (left + 1) count messages []
        (.silent (a.asked model messages) (a.answer model count messages).deltas)
  | stuck {left count messages reply}
      (ho : (a.answer model count messages).outcome = .finished reply)
      (hc : (a.answer model count messages).calls ≠ [])
      (hr : ((a.executor count).executeAll (a.answer model count messages).calls).result = none) :
      Course a model (left + 1) count messages []
        (.stuck (a.asked model messages) (a.answer model count messages).deltas
          (a.answer model count messages).calls
          ((a.executor count).executeAll (a.answer model count messages).calls).steps)
  | round {left count messages reply results rounds close}
      (ho : (a.answer model count messages).outcome = .finished reply)
      (hc : (a.answer model count messages).calls ≠ [])
      (hr : ((a.executor count).executeAll (a.answer model count messages).calls).result = some results)
      (rest : Course a model left (count + 1)
        (messages ++ (a.roundOf model count messages results).messages) rounds close) :
      Course a model (left + 1) count messages
        (a.roundOf model count messages results :: rounds) close

/-! ## The loop and its course -/

/-- What streams in is passed on up to the end of the reading. -/
theorem gather_spec {hangs : Bool} {items : List StreamItem} {g : Gathering} (hg : g.done = false) :
    (gather hangs g items).actions =
        Action.emits ((Gathering.deltas (StreamItem.taken items)).map .content) ∧
      (gather hangs g items).ending =
        match StreamItem.reading hangs items with
        | .finished _ => .finished (.ofGathering (g.pushAll (StreamItem.taken items)))
        | .failed f => .failed f
        | .hung => .hung := by
  induction items generalizing g with
  | nil => cases hangs <;> exact ⟨rfl, rfl⟩
  | cons item items ih =>
      cases item with
      | error f => exact ⟨rfl, rfl⟩
      | ok c =>
          have hd : (g.push c).done = c.done := by simp [Gathering.push, hg]
          have hpass : (gather hangs g (.ok c :: items)).actions =
                Action.emits ((Gathering.delta? c).toList.map .content) ++
                  (if c.done then Process.done (Reply.ofGathering (g.push c))
                    else gather hangs (g.push c) items).actions ∧
              (gather hangs g (.ok c :: items)).ending =
                (if c.done then Process.done (Reply.ofGathering (g.push c))
                  else gather hangs (g.push c) items).ending := by
            simp only [gather, hd]
            cases Gathering.delta? c <;> exact ⟨rfl, rfl⟩
          have hdeltas (cs : List Chunk) :
              Gathering.deltas (c :: cs) = (Gathering.delta? c).toList ++ Gathering.deltas cs := by
            cases h : Gathering.delta? c <;> simp [Gathering.deltas, h]
          rw [hpass.1, hpass.2, StreamItem.taken, StreamItem.reading, hdeltas, List.map_append,
            Action.emits_append]
          cases hc : c.done with
          | true => exact ⟨rfl, rfl⟩
          | false =>
              obtain ⟨iha, ihe⟩ := ih (hd.trans hc)
              simp only [Bool.false_eq_true, ↓reduceIte]
              exact ⟨congrArg _ iha, ihe⟩

theorem actions_turn (q : BackendRequest) (t : Turn) :
    (turn q t).actions = .heed :: .ask q :: Action.emits (t.deltas.map .content) := by
  cases t with
  | refused f => rfl
  | streamed items hangs =>
      exact congrArg (.heed :: .ask q :: ·) (gather_spec (g := .empty) rfl).1

theorem ending_turn (q : BackendRequest) (t : Turn) : (turn q t).ending = t.outcome := by
  cases t with
  | refused f => rfl
  | streamed items hangs => exact (gather_spec (g := .empty) rfl).2

/-- Tools are used between the announcement of their calls and their results. -/
theorem useTools_spec (e : Executor) (calls : List ToolCall) {results : List ToolResult}
    (h : (e.executeAll calls).result = some results) :
    (useTools e calls).actions =
        Action.emits (calls.map .ofCall) ++ .heed :: (e.executeAll calls).steps.map .ofStep ++
          Action.emits (results.map .ofResult) ∧
      (useTools e calls).ending = .finished results := by
  let report (rs : List ToolResult) : Process (List ToolResult) :=
    (Process.emitAll (rs.map .ofResult)).bind fun _ => .done rs
  have hwork := Process.ending_ofActivity (e.executeAll calls)
  rw [h] at hwork
  have hrest : ((Process.ofActivity (e.executeAll calls)).bind report).actions =
      (e.executeAll calls).steps.map .ofStep ++ Action.emits (results.map .ofResult) := by
    rw [Process.actions_bind_finished hwork, Process.actions_ofActivity,
      Process.actions_bind_finished (Process.ending_emitAll _), Process.actions_emitAll]
    simp
  constructor
  · refine (Process.actions_bind_finished (Process.ending_emitAll _) _).trans ?_
    rw [Process.actions_emitAll, List.append_assoc, List.cons_append, ← hrest]
    rfl
  · refine (Process.ending_bind_finished (Process.ending_emitAll _) _).trans ?_
    refine (Process.ending_bind_finished hwork _).trans ?_
    exact Process.ending_bind_finished (Process.ending_emitAll _) _

theorem useTools_stuck (e : Executor) (calls : List ToolCall)
    (h : (e.executeAll calls).result = none) :
    (useTools e calls).actions =
        Action.emits (calls.map .ofCall) ++ .heed :: (e.executeAll calls).steps.map .ofStep ∧
      (useTools e calls).ending = .hung := by
  have hwork := Process.ending_ofActivity (e.executeAll calls)
  rw [h] at hwork
  constructor
  · refine (Process.actions_bind_finished (Process.ending_emitAll _) _).trans ?_
    rw [Process.actions_emitAll, ← Process.actions_ofActivity, ← Process.actions_bind_hung hwork]
    rfl
  · refine (Process.ending_bind_finished (Process.ending_emitAll _) _).trans ?_
    exact Process.ending_bind_hung hwork _

section

variable {a : Agent} {model : String} {count : Nat} {messages : Conversation} (left : Nat)

theorem turns_silent (ho : (a.answer model count messages).outcome = .hung) :
    (turns a model (left + 1) count messages).actions =
        .heed :: .ask (a.asked model messages) ::
          Action.emits ((a.answer model count messages).deltas.map .content) ∧
      (turns a model (left + 1) count messages).ending = .hung := by
  have hend := Process.ending_attempt
    (turn (a.asked model messages) (a.answer model count messages))
  rw [ending_turn, ho] at hend
  constructor
  · refine (Process.actions_bind_hung hend _).trans ?_
    rw [Process.actions_attempt, actions_turn]
  · exact Process.ending_bind_hung hend _

theorem turns_failed {f : Failure} (ho : (a.answer model count messages).outcome = .failed f) :
    (turns a model (left + 1) count messages).actions =
        .heed :: .ask (a.asked model messages) ::
          (Action.emits ((a.answer model count messages).deltas.map .content) ++
            if f = .cancelled then [] else Action.emits [.error f.message, .done none]) ∧
      (turns a model (left + 1) count messages).ending = .failed f := by
  have hend := Process.ending_attempt
    (turn (a.asked model messages) (a.answer model count messages))
  rw [ending_turn, ho] at hend
  constructor
  · refine (Process.actions_bind_finished hend _).trans ?_
    rw [Process.actions_attempt, actions_turn, List.cons_append, List.cons_append]
    cases f <;> rfl
  · refine (Process.ending_bind_finished hend _).trans ?_
    cases f <;> rfl

theorem turns_completed {reply : Reply}
    (ho : (a.answer model count messages).outcome = .finished reply)
    (hc : (a.answer model count messages).calls = []) :
    (turns a model (left + 1) count messages).actions =
        .heed :: .ask (a.asked model messages) ::
          (Action.emits ((a.answer model count messages).deltas.map .content) ++
            Action.emits [.done none]) ∧
      (turns a model (left + 1) count messages).ending =
        .finished (a.completion model count messages) := by
  have hend := Process.ending_attempt
    (turn (a.asked model messages) (a.answer model count messages))
  have hcalls := hc.symm.trans (Turn.calls_of_outcome ho)
  rw [ending_turn, ho] at hend
  constructor
  · refine (Process.actions_bind_finished hend _).trans ?_
    rw [Process.actions_attempt, actions_turn, List.cons_append, List.cons_append]
    simp only [← hcalls]
    rfl
  · refine (Process.ending_bind_finished hend _).trans ?_
    simp only [← hcalls, completion, ← Turn.content_eq_join ho]
    rfl

/-- After a turn that asks for tools, the loop uses them and goes on with their results. -/
theorem turns_useTools {reply : Reply}
    (ho : (a.answer model count messages).outcome = .finished reply)
    (hc : (a.answer model count messages).calls ≠ []) :
    let rest := (useTools (a.executor count) (a.answer model count messages).calls).bind fun results =>
      turns a model left (count + 1) (messages ++ (a.roundOf model count messages results).messages)
    (turns a model (left + 1) count messages).actions =
        .heed :: .ask (a.asked model messages) ::
          (Action.emits ((a.answer model count messages).deltas.map .content) ++ rest.actions) ∧
      (turns a model (left + 1) count messages).ending = rest.ending := by
  intro rest
  have hend := Process.ending_attempt
    (turn (a.asked model messages) (a.answer model count messages))
  have hcalls := Turn.calls_of_outcome ho
  have htext := Turn.content_eq_join ho
  rw [ending_turn, ho] at hend
  cases hr : reply.toolCalls with
  | nil => exact absurd (hcalls.trans hr) hc
  | cons call calls =>
      have hcalls := hcalls.trans hr
      constructor
      · refine (Process.actions_bind_finished hend _).trans ?_
        rw [Process.actions_attempt, actions_turn, List.cons_append, List.cons_append]
        simp only [rest, Block.messages, roundOf, hr, hcalls, ← htext]
        rfl
      · refine (Process.ending_bind_finished hend _).trans ?_
        simp only [rest, Block.messages, roundOf, hr, hcalls, ← htext]
        rfl

end

/-- Every loop has a course. -/
theorem exists_course (a : Agent) (model : String) (left count : Nat) (messages : Conversation) :
    ∃ rounds close, Course a model left count messages rounds close ∧
      (turns a model left count messages).actions = rounds.flatMap Round.actions ++ close.actions ∧
      (turns a model left count messages).ending = close.ending := by
  induction left generalizing count messages with
  | zero => exact ⟨[], _, .capped, rfl, rfl⟩
  | succ left ih =>
      cases ho : (a.answer model count messages).outcome with
      | hung => exact ⟨[], _, .silent ho, turns_silent left ho⟩
      | failed f =>
          obtain ⟨ha, he⟩ := turns_failed left ho
          refine ⟨[], _, .failed ho, ha.trans ?_, he⟩
          cases f <;> simp [Close.actions, Close.events]
      | finished reply =>
          by_cases hc : (a.answer model count messages).calls = []
          · obtain ⟨ha, he⟩ := turns_completed left ho hc
            refine ⟨[], _, .completed ho hc, ha.trans ?_, he⟩
            simp [Close.actions, Close.events]
          · obtain ⟨ha, he⟩ := turns_useTools left ho hc
            cases hr : ((a.executor count).executeAll (a.answer model count messages).calls).result with
            | none =>
                obtain ⟨hua, hue⟩ := useTools_stuck _ _ hr
                refine ⟨[], _, .stuck ho hc hr, ha.trans ?_,
                  he.trans (Process.ending_bind_hung hue _)⟩
                rw [Process.actions_bind_hung hue, hua]
                simp [Close.actions, Close.events]
            | some results =>
                obtain ⟨hua, hue⟩ := useTools_spec _ _ hr
                obtain ⟨rounds, close, hcourse, hra, hre⟩ := ih (count + 1)
                  (messages ++ (a.roundOf model count messages results).messages)
                refine ⟨_, _, .round ho hc hr hcourse, ha.trans ?_,
                  he.trans ((Process.ending_bind_finished hue _).trans hre)⟩
                rw [Process.actions_bind_finished hue, hua, hra]
                simp [Round.actions, Round.body, Round.work, roundOf]

theorem exists_course_run (a : Agent) {r : ChatRequest} (hne : r.messages ≠ []) :
    ∃ rounds close, Course a r.model a.config.maxIterations 0
        (Conversation.withSystem a.config.systemPrompt r.messages) rounds close ∧
      (a.run r).actions = rounds.flatMap Round.actions ++ close.actions ∧
      (a.run r).ending = close.ending := by
  rw [run, if_neg (by simpa using hne)]
  exact exists_course ..

/-- A run fails at once, or it has a course. -/
theorem run_cases (a : Agent) (r : ChatRequest) :
    a.run r = .fail .noMessages ∨
      ∃ rounds close, Course a r.model a.config.maxIterations 0
          (Conversation.withSystem a.config.systemPrompt r.messages) rounds close ∧
        (a.run r).actions = rounds.flatMap Round.actions ++ close.actions ∧
        (a.run r).ending = close.ending := by
  by_cases hne : r.messages = []
  · left
    rw [run, if_pos (by simp [hne])]
  · exact .inr (a.exists_course_run hne)

/-! ## What is left of a course -/

namespace Course

variable {a : Agent} {model : String} {left count : Nat} {messages : Conversation}
  {rounds done rest : List Round} {close : Close}

/-- After some of its rounds a course goes on as a course. -/
theorem drop (h : Course a model left count messages (done ++ rest) close) :
    done.length ≤ left ∧ Course a model (left - done.length) (count + done.length)
      (messages ++ done.flatMap (·.messages)) rest close := by
  induction done generalizing left count messages with
  | nil => exact ⟨Nat.zero_le _, by simpa using h⟩
  | cons r done ih =>
      cases h with
      | round ho hc hr hrest =>
          obtain ⟨hle, hcourse⟩ := ih hrest
          refine ⟨Nat.succ_le_succ hle, ?_⟩
          rw [List.append_assoc, Nat.add_assoc, Nat.add_comm 1] at hcourse
          rwa [List.length_cons, Nat.add_sub_add_right, List.flatMap_cons]

theorem length_le (h : Course a model left count messages rounds close) : rounds.length ≤ left := by
  rw [← List.append_nil rounds] at h
  exact h.drop.1

/-- A request carries all that has been said so far. -/
theorem request_eq {r : Round} (h : Course a model left count messages (done ++ r :: rest) close) :
    r.request = a.asked model (messages ++ done.flatMap (·.messages)) := by
  have hrest := h.drop.2
  generalize left - done.length = l at hrest
  cases hrest with
  | round => rfl

theorem close_request_eq (h : Course a model left count messages rounds close) {q : BackendRequest}
    (hq : close.request? = some q) :
    q = a.asked model (messages ++ rounds.flatMap (·.messages)) := by
  rw [← List.append_nil rounds] at h
  have hrest := h.drop.2
  generalize left - rounds.length = l at hrest
  cases hrest <;> cases hq <;> rfl

/-- Where no tool of a registry makes the client go away, no run does. -/
theorem dismiss_not_mem {r : Registry} {d : Dispatch} (hr : r.Discreet)
    (h : Course a model left count messages rounds close) (he : a.executor = fun _ => .ofRegistry r d) :
    .step .dismiss ∉ rounds.flatMap Round.actions ++ close.actions := by
  have hbatch (n : Nat) (calls : List ToolCall) :
      .dismiss ∉ ((a.executor n).executeAll calls).steps.filter (· ≠ .pause) := by
    rw [he]
    exact fun hm => Executor.dismiss_not_mem_executeAll hr d calls (List.mem_of_mem_filter hm)
  rw [← Action.mem_steps]
  induction h with
  | capped | completed | failed | silent => simp [Close.actions]
  | stuck => simpa [Close.actions] using hbatch _ _
  | round ho hc hres hrest ih =>
      rw [List.flatMap_cons, List.append_assoc, Action.steps_append, Round.steps_actions,
        List.mem_append, not_or]
      exact ⟨hbatch _ _, ih⟩

end Course

theorem dismiss_not_mem_run {registry : Registry} (hd : registry.Discreet) (config : AgentConfig)
    (backend : Backend) (request : ChatRequest) :
    .step .dismiss ∉ ((ofRegistry config backend registry).run request).actions := by
  rcases run_cases (ofRegistry config backend registry) request with
    hrun | ⟨rounds, close, hcourse, hactions, -⟩
  · rw [hrun]
    exact nofun
  · rw [hactions]
    exact hcourse.dismiss_not_mem hd rfl

end Agent

/-! ## Runs of two agents -/

/-- A relation between processes that all processes stand in to themselves, and that is kept when
they go on with what came of them. -/
structure Process.Congruence (R : ∀ ⦃α : Type⦄, Process α → Process α → Prop) : Prop where
  refl : ∀ {α : Type} (p : Process α), R p p
  bind : ∀ {α β : Type} {p q : Process α} {k k' : α → Process β}, R p q → (∀ a, R (k a) (k' a)) →
    R (p.bind k) (q.bind k')

namespace Agent

variable {R : ∀ ⦃α : Type⦄, Process α → Process α → Prop} {a b : Agent}

theorem turns_congruence (hR : Process.Congruence R) (hbackend : a.backend = b.backend)
    (hoffers : a.offers = b.offers)
    (htools : ∀ n calls, R (useTools (a.executor n) calls) (useTools (b.executor n) calls)) (model : String)
    (left count : Nat) (messages : Conversation) :
    R (turns a model left count messages) (turns b model left count messages) := by
  -- related uses come to the same results, so both runs go on with the same conversation
  induction left generalizing count messages with
  | zero => exact hR.refl _
  | succ left ih =>
      simp only [turns, hbackend, hoffers]
      refine hR.bind (hR.refl _) fun answer => ?_
      cases answer with
      | error f => cases f <;> exact hR.refl _
      | ok reply =>
          dsimp only
          split
          · exact hR.refl _
          · exact hR.bind (htools _ _) fun _ => ih _ _

/-- Runs of agents that differ only in how they use tools are related if each use is. -/
theorem run_congruence (hR : Process.Congruence R)
    (hcap : a.config.maxIterations = b.config.maxIterations)
    (hprompt : a.config.systemPrompt = b.config.systemPrompt)
    (hbackend : a.backend = b.backend) (hoffers : a.offers = b.offers)
    (htools : ∀ n calls, R (useTools (a.executor n) calls) (useTools (b.executor n) calls))
    (request : ChatRequest) : R (a.run request) (b.run request) := by
  simp only [run]
  split
  · exact hR.refl _
  · rw [hcap, hprompt]
    exact turns_congruence hR hbackend hoffers htools ..

/-- Turns go the same if each answer below the cap is taken in alike. -/
theorem turns_agree {backend : Backend} {model : String} {left count : Nat}
    {messages : Conversation}
    (h : ∀ n < count + left, ∀ q, turn q (backend n q) = turn q (a.backend n q)) :
    turns { a with backend := backend } model left count messages =
      turns a model left count messages := by
  induction left generalizing count messages with
  | zero => rfl
  | succ left ih =>
      have hrest (ms : Conversation) :
          turns { a with backend := backend } model left (count + 1) ms =
            turns a model left (count + 1) ms :=
        ih fun n hn => h n (by omega)
      simp only [turns, h count (by omega), hrest]

theorem run_agree {backend : Backend}
    (h : ∀ n < a.config.maxIterations, ∀ q, turn q (backend n q) = turn q (a.backend n q))
    (r : ChatRequest) : ({ a with backend := backend } : Agent).run r = a.run r := by
  rw [run, run]
  split
  · rfl
  · exact turns_agree (by rwa [Nat.zero_add])

end Agent

end ChatAgent
