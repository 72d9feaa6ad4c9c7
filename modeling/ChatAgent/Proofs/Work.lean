import ChatAgent.Proofs.Course

/-!
# When the backend and the tools are put to work

Before every request and before every batch of tools a run looks whether the client is still there
(`Agent.guarded_run`), so that nothing is begun for one who has left. Tools are used between the
announcement of their calls and their results, whoever listens (`Agent.work_of_run`).
-/

namespace ChatAgent

variable {α : Type}

/-! ## Up to an event -/

namespace Action

/-- The actions up to the event of a number, which is the last of them. -/
def upTo : Nat → List Action → List Action
  | 0, _ => []
  | _ + 1, [] => []
  | n + 1, emit e :: as => emit e :: upTo n as
  | n + 1, a :: as => a :: upTo (n + 1) as

@[simp] theorem upTo_zero (as : List Action) : upTo 0 as = [] := by
  cases as <;> rfl

@[simp] theorem upTo_nil (n : Nat) : upTo n [] = [] := by
  cases n <;> rfl

theorem upTo_prefix (n : Nat) (as : List Action) : upTo n as <+: as := by
  induction as generalizing n with
  | nil => simp
  | cons a as ih =>
      cases n with
      | zero => simp
      | succ n => cases a <;> exact (List.prefix_cons_inj _).mpr (ih _)

theorem events_upTo (n : Nat) (as : List Action) : events (upTo n as) = (events as).take n := by
  induction as generalizing n with
  | nil => simp
  | cons a as ih =>
      cases n with
      | zero => simp
      | succ n => cases a <;> simp [upTo, ih]

theorem upTo_ends {n : Nat} {as : List Action} (h : n ≤ (events as).length) :
    upTo n as = [] ∨ ∃ before e, upTo n as = before ++ [emit e] := by
  induction as generalizing n with
  | nil => simp
  | cons a as ih =>
      cases n with
      | zero => simp
      | succ n =>
          right
          have hrest (hn : n + 1 ≤ (events as).length) :
              ∃ before e, a :: upTo (n + 1) as = before ++ [emit e] := by
            rcases ih hn with hnil | ⟨before, e, he⟩
            · have hlen := congrArg (fun as => (events as).length) hnil
              simp only [events_upTo, List.length_take, events_nil, List.length_nil] at hlen
              omega
            · exact ⟨a :: before, e, congrArg (a :: ·) he⟩
          cases a with
          | emit e =>
              rcases ih (n := n) (by simpa using h) with hnil | ⟨before, e', he⟩
              · exact ⟨[], e, congrArg (emit e :: ·) hnil⟩
              · exact ⟨emit e :: before, e', congrArg (emit e :: ·) he⟩
          | heed => exact hrest (by simpa using h)
          | ask r => exact hrest (by simpa using h)
          | step s => exact hrest (by simpa using h)

/-! ## Looking before working -/

/-- Between an event and the next request or step of a tool there is a look at the client. The flag
says whether there has been one since the last event. -/
def Guarded : Bool → List Action → Prop
  | _, [] => True
  | _, emit _ :: as => Guarded false as
  | _, heed :: as => Guarded true as
  | looked, ask _ :: as => looked = true ∧ Guarded looked as
  | looked, step _ :: as => looked = true ∧ Guarded looked as

theorem guarded_of_unlooked {as : List Action} (h : Guarded false as) (looked : Bool) :
    Guarded looked as := by
  cases as with
  | nil => trivial
  | cons a as =>
      cases a with
      | emit e => exact h
      | heed => exact h
      | ask r => exact absurd h.1 (by decide)
      | step s => exact absurd h.1 (by decide)

theorem guarded_emits {as : List Action} (h : Guarded false as) (looked : Bool) (es : List Event) :
    Guarded looked (emits es ++ as) := by
  induction es generalizing looked with
  | nil => exact guarded_of_unlooked h looked
  | cons e es ih => exact ih false

theorem guarded_steps {as : List Action} (h : Guarded true as) (ss : List Step) :
    Guarded true (ss.map ofStep ++ as) := by
  induction ss with
  | nil => exact h
  | cons s ss ih =>
      cases s with
      | pause => exact ih
      | _ => exact ⟨rfl, ih⟩

end Action

/-- A listener who goes away, for all to hear, once so many events have been taken. -/
structure Listener.LeavesAfter (l : Listener) (n : Nat) (as : List Action) : Prop where
  takes : ∀ h, h <+: as → (l.takes h ↔ (Action.events h).length < n)
  gone : ∀ h, h <+: as → (l.gone h ↔ n ≤ (Action.events h).length)

/-- Whoever leaves a process that looks before it works sees the actions up to the last event. -/
theorem Process.watch_of_leaves {l : Listener} {n m : Nat} {p : Process α} {h : List Action}
    {looked : Bool} (hl : l.LeavesAfter n (h ++ p.actions)) (hm : (Action.events h).length + m = n)
    (hp : Action.Guarded looked p.actions) (hlook : looked = true → 0 < m) :
    (p.watch l h).1 = h ++ Action.upTo m p.actions := by
  induction p generalizing h m looked with
  | done a => simp [watch]
  | fail f => simp [watch]
  | hang => simp [watch]
  | act a next ih =>
      have hgo {m' : Nat} {looked' : Bool} (hm' : (Action.events (h ++ [a])).length + m' = n)
          (hp' : Action.Guarded looked' (next ()).actions) (hlook' : looked' = true → 0 < m') :
          ((next ()).watch l (h ++ [a])).1 = h ++ a :: Action.upTo m' (next ()).actions := by
        rw [ih () (by rwa [List.append_assoc]) hm' hp' hlook', List.append_assoc]
        rfl
      have ht := hl.takes h (List.prefix_append ..)
      have hg := hl.gone h (List.prefix_append ..)
      cases m with
      | zero =>
          rw [Action.upTo_zero, List.append_nil]
          cases a with
          | emit e =>
              simp only [watch]
              rw [if_neg (fun htakes => by have := ht.mp htakes; omega)]
          | heed =>
              simp only [watch]
              rw [if_pos (hg.mpr (by omega))]
          | ask r => exact absurd (hlook hp.1) (Nat.lt_irrefl 0)
          | step s => exact absurd (hlook hp.1) (Nat.lt_irrefl 0)
      | succ m =>
          cases a with
          | emit e =>
              simp only [watch]
              rw [if_pos (ht.mpr (by omega))]
              exact hgo (by simp; omega) hp (by simp)
          | heed =>
              simp only [watch]
              rw [if_neg (fun hgone => by have := hg.mp hgone; omega)]
              exact hgo (by simpa using hm) hp fun _ => Nat.succ_pos m
          | ask r => exact hgo (by simpa using hm) hp.2 hlook
          | step s => exact hgo (by simpa using hm) hp.2 hlook

/-! ## Runs look before they work -/

theorem Client.leavesAfter_listener {n : Nat} {as : List Action} (hd : .step .dismiss ∉ as) :
    (Client.listener ⟨some n, none, true⟩).LeavesAfter n as := by
  have hgone (h : List Action) (hp : h <+: as) :
      Client.gone ⟨some n, none, true⟩ (.ofHistory h) = decide (n ≤ (Action.events h).length) :=
    gone_ofHistory _ fun hm => hd (hp.subset hm)
  constructor
  · intro h hp
    rw [takes_listener, Client.takes, hgone h hp]
    simp
  · intro h hp
    rw [gone_listener, heard, hgone h hp]
    simp

theorem Round.guarded {as : List Action} (h : Action.Guarded false as) (r : Round) :
    Action.Guarded false (r.actions ++ as) := by
  have hresults := Action.guarded_emits h true (r.results.map .ofResult)
  have hwork : Action.Guarded false (.heed :: (r.steps.map Action.ofStep ++
      (Action.emits (r.results.map .ofResult) ++ as))) :=
    Action.guarded_steps hresults r.steps
  have htold := Action.guarded_emits hwork true (r.deltas.map .content ++ r.calls.map .ofCall)
  simp only [actions, body, work, List.cons_append, List.append_assoc]
  rw [Action.emits_append, List.append_assoc] at htold
  exact ⟨rfl, htold⟩

theorem Close.guarded (c : Close) : Action.Guarded false c.actions := by
  have hnil (looked : Bool) : Action.Guarded looked [] := trivial
  have htold (es : List Event) : Action.Guarded true (Action.emits es) := by
    simpa using Action.guarded_emits (hnil false) true es
  cases c with
  | capped o => trivial
  | completed q deltas o => exact ⟨rfl, htold _⟩
  | failed q deltas f => exact ⟨rfl, htold _⟩
  | silent q deltas => exact ⟨rfl, htold _⟩
  | stuck q deltas calls steps =>
      have hwork : Action.Guarded false (.heed :: (steps.map Action.ofStep ++ [])) :=
        Action.guarded_steps (hnil true) steps
      rw [List.append_nil] at hwork
      exact ⟨rfl, Action.guarded_emits hwork true _⟩

theorem Agent.guarded_run (a : Agent) (r : ChatRequest) :
    Action.Guarded false (a.run r).actions := by
  rcases a.run_cases r with hrun | ⟨rounds, close, -, hactions, -⟩
  · rw [hrun]
    trivial
  · rw [hactions]
    clear hactions
    induction rounds with
    | nil => exact close.guarded
    | cons round rounds ih =>
        rw [List.flatMap_cons, List.append_assoc]
        exact round.guarded ih

/-! ## The tools of a turn -/

namespace Action

variable {before after sofar later : List Action} {a : Action}

/-- What is not in the first part is after it. -/
theorem split_after (h : before ++ after = sofar ++ a :: later) (ha : a ∉ before) :
    ∃ mid, sofar = before ++ mid ∧ after = mid ++ a :: later := by
  rcases List.append_eq_append_iff.mp h with ⟨mid, hs, hr⟩ | ⟨mid, hb, hl⟩
  · exact ⟨mid, hs, hr⟩
  · cases mid with
    | nil => exact ⟨[], by simpa using hb.symm, by simpa using hl.symm⟩
    | cons b mid =>
        cases hl
        exact absurd (by simp [hb]) ha

/-- What is not in the second part is before it. -/
theorem split_before (h : before ++ after = sofar ++ a :: later) (ha : a ∉ after) :
    ∃ mid, before = sofar ++ a :: mid ∧ later = mid ++ after := by
  rcases List.append_eq_append_iff.mp h with ⟨mid, -, hr⟩ | ⟨mid, hb, hl⟩
  · exact absurd (by simp [hr]) ha
  · cases mid with
    | nil => exact absurd (by rw [List.nil_append] at hl; simp [← hl]) ha
    | cons b mid =>
        cases hl
        exact ⟨mid, hb, rfl⟩

/-- A request in what begins with one is that one, or comes after all that it brings about. -/
theorem split_asks {q q' : BackendRequest} {body rest : List Action} (hb : requests body = [])
    (h : heed :: ask q :: (body ++ rest) = before ++ ask q' :: after) :
    before = [heed] ∧ q' = q ∧ after = body ++ rest ∨
      ∃ mid, before = heed :: ask q :: (body ++ mid) ∧ rest = mid ++ ask q' :: after := by
  rcases before with _ | ⟨b, _ | ⟨b', before⟩⟩
  · cases h
  · cases h
    exact .inl ⟨rfl, rfl, rfl⟩
  · simp only [List.cons_append, List.cons.injEq] at h
    obtain ⟨rfl, rfl, h⟩ := h
    obtain ⟨mid, rfl, hmid⟩ := split_after h
      (by rw [← mem_requests, hb]; exact List.not_mem_nil)
    exact .inr ⟨mid, rfl, hmid⟩

end Action

/-- How the tools of an answer are used, as far as what follows the request shows. -/
structure Orderly (r : Registry) (d : Dispatch) (answer : Turn) (during : List Action) : Prop where
  /-- Nothing is done before all calls have been announced. -/
  announced : ∀ sofar s later, during = sofar ++ .step s :: later →
    Action.events sofar = answer.deltas.map .content ++ answer.calls.map .ofCall
  /-- Executions start in the order of the calls whose tools are registered. -/
  starts : Step.starts (Action.steps during) <+: r.known answer.calls
  /-- So that no call is executed twice. -/
  nodup : (r.known answer.calls).Nodup
  /-- When the batch is through, each of them has been executed. -/
  complete : Action.steps during = (Executor.ofRegistry r d).work answer.calls →
    Step.starts (Action.steps during) = r.known answer.calls ∧
      (Step.finishes (Action.steps during)).Perm (r.known answer.calls)
  /-- It is through when the first result is told. -/
  reported : ∀ sofar id text error later,
    during = sofar ++ .emit (.toolResult id text error) :: later →
    Step.starts (Action.steps sofar) = r.known answer.calls ∧
      (Step.finishes (Action.steps sofar)).Perm (r.known answer.calls) ∧ Action.steps later = []

/-- What follows a request up to the next one. -/
inductive Follows (e : Executor) (answer : Turn) : List Action → Prop
  /-- No tools are used. -/
  | quiet {as : List Action} (hs : Action.steps as = [])
      (hr : ∀ id text error, .emit (.toolResult id text error) ∉ as) : Follows e answer as
  /-- Tools are used, and there may be results after them. -/
  | busy {as : List Action} (after : List Action) (ha : Action.steps after = [])
      (h : as = Action.emits (answer.deltas.map .content ++ answer.calls.map .ofCall) ++
        (.heed :: (e.executeAll answer.calls).steps.map .ofStep ++ after)) : Follows e answer as

/-- What follows a request is orderly as far as it goes, since tools finish. -/
theorem Follows.orderly {r : Registry} {d : Dispatch} {answer : Turn} {as during : List Action}
    (hf : r.Finishes) (h : Follows (.ofRegistry r d) answer as) (hp : during <+: as) :
    Orderly r d answer during := by
  have hnodup : (r.known answer.calls).Nodup := (List.Nodup.of_map _ answer.nodup_ids).filter _
  have hstarts := Executor.starts_work hf d answer.calls
  have hfinishes := Executor.finishes_work hf d answer.calls
  have hcomplete (hs : Action.steps during = (Executor.ofRegistry r d).work answer.calls) :
      Step.starts (Action.steps during) = r.known answer.calls ∧
        (Step.finishes (Action.steps during)).Perm (r.known answer.calls) := by
    rw [hs]
    exact ⟨hstarts, hfinishes⟩
  obtain ⟨rest, hrest⟩ := hp
  cases h with
  | quiet hs hr =>
      rw [← hrest, Action.steps_append, List.append_eq_nil_iff] at hs
      refine ⟨?_, by simp [hs.1, Step.starts], hnodup, hcomplete, ?_⟩
      · rintro sofar s later rfl
        simp at hs
      · rintro sofar id text error later rfl
        exact absurd (by simp [← hrest]) (hr id text error)
  | busy after ha has =>
      subst has
      have htold : Action.steps (Action.emits (answer.deltas.map .content ++
          answer.calls.map .ofCall)) = [] := Action.steps_emits _
      have hbatch : Action.events (.heed ::
          ((Executor.ofRegistry r d).executeAll answer.calls).steps.map .ofStep) = [] := by simp
      refine ⟨?_, ?_, hnodup, hcomplete, ?_⟩
      · rintro sofar s later rfl
        rw [List.append_assoc, List.cons_append] at hrest
        obtain ⟨mid, rfl, hmid⟩ := Action.split_after hrest.symm
          (by rw [← Action.mem_steps, htold]; exact List.not_mem_nil)
        obtain ⟨mid', hmid', -⟩ := Action.split_before hmid
          (by rw [← Action.mem_steps, ha]; exact List.not_mem_nil)
        rw [hmid', Action.events_append, List.append_eq_nil_iff] at hbatch
        rw [Action.events_append, hbatch.1, Action.events_emits, List.append_nil]
      · have hsteps := congrArg Action.steps hrest
        simp only [Action.steps_append, htold, ha, Action.steps_cons, Action.steps_map_ofStep,
          Action.step?, Option.toList_none, List.nil_append, List.append_nil] at hsteps
        rw [← hstarts, Executor.work, ← hsteps, Step.starts, Step.starts, List.filterMap_append]
        exact List.prefix_append _ _
      · rintro sofar id text error later rfl
        rw [List.append_assoc, List.cons_append, ← List.append_assoc (Action.emits _)] at hrest
        obtain ⟨mid, rfl, rfl⟩ := Action.split_after hrest.symm (by
          rw [← Action.mem_events, Action.events_append, Action.events_emits, hbatch]
          simp [Event.ofCall])
        simp only [Action.steps_append, Action.steps_cons, List.append_eq_nil_iff] at ha
        rw [Action.steps_append, ha.1, List.append_nil, Action.steps_append, htold]
        simp only [List.nil_append, Action.steps_cons, Action.steps_map_ofStep, Action.step?,
          Option.toList_none]
        exact ⟨hstarts, hfinishes, ha.2.2.1⟩

namespace Agent

namespace Course

variable {a : Agent} {model : String} {left count : Nat} {messages : Conversation}
  {rounds : List Round} {close : Close}

/-- A course begins with a request, unless the cap is reached. -/
theorem begins (h : Course a model left count messages rounds close) :
    rounds.flatMap Round.actions ++ close.actions = [.emit (.done (some .maxIterations))] ∨
      ∃ q later, rounds.flatMap Round.actions ++ close.actions = .heed :: .ask q :: later := by
  cases h with
  | capped => exact .inl rfl
  | completed | failed | silent | stuck => exact .inr ⟨_, _, rfl⟩
  | round => exact .inr ⟨_, _, rfl⟩

theorem follows_close (h : Course a model left count messages [] close) {q : BackendRequest}
    (hq : close.request? = some q) :
    ∃ body, close.actions = .heed :: .ask q :: body ∧ Action.requests body = [] ∧
      Follows (a.executor count) (a.backend count q) body := by
  have htold : Follows (a.executor count) (a.backend count q) (Action.emits close.events) := by
    refine .quiet (Action.steps_emits _) fun id text error => ?_
    rw [← Action.mem_events, Action.events_emits]
    exact close.toolResult_not_mem id text error
  cases h <;> cases hq
  case completed | failed | silent => exact ⟨_, rfl, Action.requests_emits _, htold⟩
  case stuck =>
    refine ⟨_, rfl, by simp, .busy [] rfl ?_⟩
    rw [List.append_nil]
    rfl

/-- From a request on, a run goes on as a course. -/
theorem from_ask (h : Course a model left count messages rounds close) {before rest : List Action}
    {q : BackendRequest}
    (hq : rounds.flatMap Round.actions ++ close.actions = before ++ .ask q :: rest) :
    ∃ left messages later,
      Course a model left (count + (Action.requests before).length) messages later close ∧
        later.flatMap Round.actions ++ close.actions = .heed :: .ask q :: rest := by
  induction rounds generalizing left count messages before with
  | nil =>
      rw [List.flatMap_nil, List.nil_append] at hq
      have hrequest := congrArg Action.requests hq
      rw [Close.requests_actions] at hrequest
      cases hq₀ : close.request? with
      | none => simp [hq₀] at hrequest
      | some q₀ =>
          obtain ⟨body, hbody, hnone, -⟩ := h.follows_close hq₀
          refine ⟨left, messages, [], ?_⟩
          rw [hbody, ← List.append_nil body] at hq
          rcases Action.split_asks hnone hq with ⟨rfl, rfl, rfl⟩ | ⟨mid, -, hmid⟩
          · exact ⟨h, by simpa using hbody⟩
          · simp at hmid
  | cons r rounds ih =>
      rw [List.flatMap_cons, List.append_assoc] at hq
      have hnone : Action.requests r.body = [] := by simp [Round.body, Round.work]
      rcases Action.split_asks hnone hq with ⟨rfl, rfl, rfl⟩ | ⟨mid, rfl, hmid⟩
      · exact ⟨left, messages, r :: rounds, h, by simp [Round.actions]⟩
      · cases h with
        | round ho hc hr hrest =>
            obtain ⟨left', messages', later, hcourse, hlater⟩ := ih hrest hmid
            refine ⟨left', messages', later, ?_, hlater⟩
            simp only [Action.requests_cons, Action.requests_append, hnone, Action.request?,
              Option.toList_none, Option.toList_some, List.nil_append, List.length_append,
              List.length_singleton]
            rwa [← Nat.add_assoc]

/-- A request is followed by what its answer brings about, up to the next one. -/
theorem follows (h : Course a model left count messages rounds close) {before rest : List Action}
    {q : BackendRequest}
    (hq : rounds.flatMap Round.actions ++ close.actions = before ++ .ask q :: rest) :
    let n := count + (Action.requests before).length
    ∃ as, Follows (a.executor n) (a.backend n q) as ∧
      (rest = as ∨ ∃ q' later, rest = as ++ .ask q' :: later) := by
  intro n
  obtain ⟨left', messages', later, hcourse, hlater⟩ := h.from_ask hq
  cases later with
  | nil =>
      have hrequest := congrArg Action.requests hlater
      rw [List.flatMap_nil, List.nil_append, Close.requests_actions] at hrequest
      cases hq₀ : close.request? with
      | none => simp [hq₀] at hrequest
      | some q₀ =>
          obtain ⟨body, hbody, -, hfollows⟩ := hcourse.follows_close hq₀
          cases hbody.symm.trans hlater
          exact ⟨_, hfollows, .inl rfl⟩
  | cons r later =>
      cases hcourse with
      | @round _ _ _ _ results _ _ ho hc hr hrest =>
          have hbusy (after : List Action) (hafter : Action.steps after = []) :
              Follows (a.executor n) (a.answer model n messages')
                ((a.roundOf model n messages' results).body ++ after) := by
            refine .busy (Action.emits (results.map .ofResult) ++ after) (by simp [hafter]) ?_
            simp [Round.body, Round.work, roundOf]
          rw [List.flatMap_cons, List.append_assoc] at hlater
          cases hlater
          rcases hrest.begins with hb | ⟨q', later, hb⟩
          · rw [hb]
            exact ⟨_, hbusy _ rfl, .inl rfl⟩
          · rw [hb]
            exact ⟨_, hbusy [.heed] rfl, .inr ⟨q', later, by simp [n]⟩⟩

/-- No tool is used before the first request. -/
theorem exists_ask (h : Course a model left count messages rounds close) {sofar later : List Action}
    {s : Step} (hs : rounds.flatMap Round.actions ++ close.actions = sofar ++ .step s :: later) :
    ∃ q, .ask q ∈ sofar := by
  rcases h.begins with hb | ⟨q, rest, hb⟩
  · have hm : .step s ∈ rounds.flatMap Round.actions ++ close.actions := by simp [hs]
    simp [hb] at hm
  · rw [hb] at hs
    rcases sofar with _ | ⟨b, _ | ⟨b', sofar⟩⟩ <;> cases hs
    exact ⟨q, by simp⟩

end Course

section

variable {config : AgentConfig} {backend : Backend} {registry : Registry} {request : ChatRequest}

theorem exists_ask_of_run {history sofar later : List Action} {s : Step}
    (hp : history <+: ((ofRegistry config backend registry).run request).actions)
    (hs : history = sofar ++ .step s :: later) : ∃ q, .ask q ∈ sofar := by
  obtain ⟨rest, hrest⟩ := hp
  rw [hs, List.append_assoc] at hrest
  rcases run_cases (ofRegistry config backend registry) request with
    hrun | ⟨rounds, close, hcourse, hactions, -⟩
  · rw [hrun] at hrest
    simp at hrest
  · rw [hactions] at hrest
    exact hcourse.exists_ask hrest.symm

/-- As far as a run gets, the tools of each turn are used in order. -/
theorem orderly_of_run (hf : registry.Finishes) {history before during after : List Action}
    {q : BackendRequest}
    (hp : history <+: ((ofRegistry config backend registry).run request).actions)
    (hq : history = before ++ .ask q :: (during ++ after)) (hd : ∀ q', .ask q' ∉ during) :
    Orderly registry config.dispatch (backend (Action.requests before).length q) during := by
  obtain ⟨rest, hrest⟩ := hp
  rw [hq, List.append_assoc, List.cons_append, List.append_assoc] at hrest
  rcases run_cases (ofRegistry config backend registry) request with
    hrun | ⟨rounds, close, hcourse, hactions, -⟩
  · rw [hrun] at hrest
    simp at hrest
  · rw [hactions] at hrest
    obtain ⟨as, hfollows, has⟩ := hcourse.follows hrest.symm
    rw [Nat.zero_add] at hfollows
    refine hfollows.orderly hf ?_
    rcases has with has | ⟨q', later, has⟩
    · exact has ▸ List.prefix_append ..
    -- What comes before the next request ends there at the latest.
    · have hpre : during <+: as ++ .ask q' :: later := has ▸ List.prefix_append ..
      rcases List.prefix_or_prefix_of_prefix hpre (List.prefix_append ..) with hd' | ⟨mid, rfl⟩
      · exact hd'
      · rw [List.prefix_append_right_inj, List.prefix_cons_iff] at hpre
        rcases hpre with rfl | ⟨mid', rfl, -⟩
        · simp
        · exact absurd (by simp) (hd q')

end

/-- Whatever a client does, a tool is used only when all calls of its turn have been announced, each
call is executed once if its tool is registered, and results are told when all executions have
finished. For whoever leaves, nothing is begun after the last event. -/
theorem work_of_run {config : AgentConfig} {backend : Backend} {registry : Registry}
    {request : ChatRequest} (hf : registry.Finishes) (hd : registry.Discreet) :
    let run := (ofRegistry config backend registry).run request
    (∀ n ≤ (run.follow .patient .empty).1.events.length, ∃ sofar later,
      run.actions = sofar ++ later ∧
      (run.follow .patient .empty).1 = .ofHistory (sofar ++ later) ∧
      (Action.events sofar).length = n ∧ (sofar = [] ∨ ∃ before e, sofar = before ++ [.emit e]) ∧
      (run.follow ⟨some n, none, true⟩ .empty).1 = .ofHistory sofar) ∧
    ∀ l : Listener,
      (∀ sofar s later, (run.watch l []).1 = sofar ++ .step s :: later → ∃ q, .ask q ∈ sofar) ∧
      ∀ before q during after, (run.watch l []).1 = before ++ .ask q :: (during ++ after) →
        (∀ q', .ask q' ∉ during) →
        Orderly registry config.dispatch (backend (Action.requests before).length q) during := by
  intro run
  have hdismiss := dismiss_not_mem_run hd config backend request
  refine ⟨?_, fun l => ⟨fun sofar s later hs => ?_, fun before q during after hq hnone => ?_⟩⟩
  · rw [Process.follow_patient hdismiss]
    intro n (hn : n ≤ (Action.events run.actions).length)
    obtain ⟨later, hlater⟩ := Action.upTo_prefix n run.actions
    refine ⟨Action.upTo n run.actions, later, hlater.symm, congrArg Trace.ofHistory hlater.symm, ?_,
      Action.upTo_ends hn, ?_⟩
    · rw [Action.events_upTo, List.length_take, Nat.min_eq_left hn]
    · rw [← Trace.ofHistory_nil, Process.follow_eq_watch]
      exact congrArg Trace.ofHistory (Process.watch_of_leaves (h := [])
        (Client.leavesAfter_listener hdismiss) (Nat.zero_add n) (guarded_run _ request) nofun)
  · exact exists_ask_of_run (run.watch_prefix l []) hs
  · exact orderly_of_run hf (run.watch_prefix l []) hq hnone

theorem work_of_run_hello :
    let run := (ofRegistry ⟨"Be brief.", 2, .sequential⟩ .echoing .echoing).run .hello
    let call : ToolCall := ⟨"call_0", "echo", .empty⟩
    (∃ sofar later, run.actions = sofar ++ later ∧
      (run.follow .patient .empty).1 = .ofHistory (sofar ++ later) ∧
      (Action.events sofar).length = 1 ∧ (sofar = [] ∨ ∃ before e, sofar = before ++ [.emit e]) ∧
      (run.follow ⟨some 1, none, true⟩ .empty).1 = .ofHistory sofar) ∧
    Orderly .echoing .sequential (.chunks [.calls [.ofFunction "echo" .empty]])
      [.emit (.ofCall call), .heed, .step (.start call), .step (.finish call),
        .emit (.toolResult "call_0" "" none), .heed] :=
  have h := work_of_run Registry.finishes_echoing Registry.discreet_echoing
  ⟨h.1 1 (by decide),
    (h.2 Client.patient.listener).2 [.heed]
      ⟨"small", [.system "Be brief.", .user "Hello!"], Registry.echoing.offers⟩ _ _ rfl (by simp)⟩

end Agent

end ChatAgent
