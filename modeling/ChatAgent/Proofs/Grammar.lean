import ChatAgent.Proofs.Course

/-!
# What a client is told of a run

The events of a run that nobody cuts short are blocks, one for each turn in which tools are used,
and then one of three closings (`Agent.events_of_run`).
-/

namespace ChatAgent

/-- Tools are asked for, each by a name of its own, and each has its result. -/
structure Block.Answered (b : Block) : Prop where
  calls_ne_nil : b.calls ≠ []
  nodup_ids : (b.calls.map (·.id)).Nodup
  callIds_eq : b.results.map (·.callId) = b.calls.map (·.id)

/-- How a run with a cap closes after its blocks: the last events, how many requests it has made in
all, and how it ends. -/
inductive Closing (cap blocks : Nat) : List Event → Nat → Ending RunOutcome → Prop
  | completed (deltas : List String) {o : RunOutcome} (hcap : blocks + 1 ≤ cap)
      (hstop : o.stop = .completed) (hcount : o.iterations = blocks + 1) :
      Closing cap blocks (deltas.map .content ++ [.done none]) (blocks + 1) (.finished o)
  | failed (deltas : List String) {f : Failure} (hcap : blocks + 1 ≤ cap) :
      Closing cap blocks (deltas.map .content ++ [.error f.message, .done none]) (blocks + 1)
        (.failed f)
  | capped {o : RunOutcome} (hcap : blocks = cap) (hstop : o.stop = .maxIterations)
      (hcount : o.iterations = blocks) :
      Closing cap blocks [.done (some .maxIterations)] blocks (.finished o)

theorem Closing.done_last {cap blocks count : Nat} {tail : List Event} {ending : Ending RunOutcome}
    (h : Closing cap blocks tail count ending) :
    ending ≠ .hung ∧ ∃ before reason, tail = before ++ [.done reason] := by
  cases h with
  | completed deltas => exact ⟨nofun, _, none, rfl⟩
  | @failed deltas f =>
      exact ⟨nofun, deltas.map .content ++ [.error f.message], none, by simp⟩
  | capped => exact ⟨nofun, [], _, rfl⟩

namespace Agent

section

variable {a : Agent} {model : String} {left count : Nat} {messages : Conversation}
  {rounds : List Round} {close : Close} {registry : Registry} {dispatch : Dispatch}

/-! ## Blocks -/

theorem Course.answered (h : Course a model left count messages rounds close)
    (he : a.executor = fun _ => .ofRegistry registry dispatch) :
    ∀ r ∈ rounds, r.toBlock.Answered := by
  induction h with
  | capped | completed | failed | silent | stuck => exact fun r hr => nomatch hr
  | round ho hc hres hrest ih =>
      rw [he] at hres
      intro r hr
      rcases List.mem_cons.mp hr with rfl | hr
      · exact ⟨hc, Turn.nodup_ids _, Executor.callIds_of_executeAll hres⟩
      · exact ih r hr

/-! ## Closings -/

/-- Where answers settle and tools finish, a course closes in one of three ways. -/
theorem Course.closing (h : Course a model left count messages rounds close)
    (he : a.executor = fun _ => .ofRegistry registry dispatch) (hf : registry.Finishes)
    (hs : ∀ n q, (a.backend n q).Settles) :
    Closing (count + left) (count + rounds.length) close.events
      (count + rounds.length + close.request?.toList.length) close.ending := by
  rw [← List.append_nil rounds] at h
  obtain ⟨hle, hrest⟩ := h.drop
  generalize hl : left - rounds.length = l at hrest
  cases hrest with
  | capped => exact .capped (by omega) rfl rfl
  | completed ho hc => exact .completed _ (by omega) rfl rfl
  | silent ho => exact absurd ho (hs _ _).1
  | stuck ho hc hr =>
      obtain ⟨results, hres⟩ := Executor.exists_results (d := dispatch) hf _
      rw [he, hres] at hr
      cases hr
  | @failed l _ _ f ho =>
      have hnc : f ≠ .cancelled := by
        rintro rfl
        exact (hs _ _).2 ho
      rw [Close.events_failed hnc]
      exact .failed _ (by omega)

end

/-- A run whose backend and tools come to an end comes to its own, and says so last. -/
theorem done_last_of_run (config : AgentConfig) {backend : Backend} {registry : Registry}
    {request : ChatRequest} (hs : ∀ n q, (backend n q).Settles) (hf : registry.Finishes)
    (hne : request.messages ≠ []) :
    let run := (ofRegistry config backend registry).run request
    run.ending ≠ .hung ∧
      ∃ before reason, Action.events run.actions = before ++ [.done reason] := by
  obtain ⟨rounds, close, hcourse, hactions, hending⟩ :=
    exists_course_run (ofRegistry config backend registry) hne
  obtain ⟨hhung, before, reason, hlast⟩ := (hcourse.closing rfl hf hs).done_last
  refine ⟨hending ▸ hhung, rounds.flatMap (·.events) ++ before, reason, ?_⟩
  rw [hactions, Action.events_append, Round.events_flatMap_actions, Close.events_actions, hlast,
    List.append_assoc]

/-- What a client who takes everything is told of a run whose backend and tools come to an end, and
how the run ends. -/
theorem events_of_run {config : AgentConfig} {backend : Backend} {registry : Registry}
    {request : ChatRequest} (hs : ∀ n q, (backend n q).Settles) (hf : registry.Finishes)
    (hd : registry.Discreet) (hne : request.messages ≠ []) :
    ∃ trace ending, ((ofRegistry config backend registry).run request).follow .patient .empty =
        (trace, ending) ∧
      ∃ (blocks : List Block) (tail : List Event),
        trace.events = blocks.flatMap Block.events ++ tail ∧
        (∀ b ∈ blocks, b.Answered) ∧
        Closing config.maxIterations blocks.length tail trace.requests.length ending := by
  obtain ⟨rounds, close, hcourse, hactions, hending⟩ :=
    exists_course_run (ofRegistry config backend registry) hne
  have hdismiss := dismiss_not_mem_run hd config backend request
  refine ⟨_, _, Process.follow_patient hdismiss, rounds.map (·.toBlock), close.events, ?_, ?_, ?_⟩
  · rw [Trace.events_ofHistory, hactions, Action.events_append, Round.events_flatMap_actions,
      Close.events_actions, List.flatMap_map]
  · intro b hb
    obtain ⟨r, hr, rfl⟩ := List.mem_map.mp hb
    exact hcourse.answered rfl r hr
  · rw [Trace.requests_ofHistory, hactions, Action.requests_append, Round.requests_flatMap_actions,
      Close.requests_actions, hending, List.length_append, List.length_map, List.length_map]
    have hclosing := hcourse.closing rfl hf hs
    rwa [Nat.zero_add, Nat.zero_add] at hclosing

theorem events_of_run_hello :
    ∃ trace ending,
      ((ofRegistry ⟨"Be brief.", 2, .sequential⟩ .echoing .echoing).run .hello).follow .patient
        .empty = (trace, ending) ∧
      ∃ (blocks : List Block) (tail : List Event),
        trace.events = blocks.flatMap Block.events ++ tail ∧
        (∀ b ∈ blocks, b.Answered) ∧ Closing 2 blocks.length tail trace.requests.length ending :=
  events_of_run Backend.settles_echoing Registry.finishes_echoing Registry.discreet_echoing
    (List.cons_ne_nil _ _)

end Agent

end ChatAgent
