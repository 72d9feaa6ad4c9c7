import ChatAgent.Proofs.Course

/-!
# Higher caps

The cap on its turns is all that ends a run early, and nothing a run does before depends on it. So a
run with a higher cap is the very same run, or it goes on where the other has to stop
(`Agent.follow_withCap`). That is seen on the courses of the two runs first (`Agent.Course.raise`)
and then on what a client is told of them, who can only cut both short or neither
(`Process.watch_past`).
-/

namespace ChatAgent

variable {α : Type}

/-! ## Processes that begin alike -/

namespace Process

variable {p q : Process α} {a : Action} {as bs cs h : List Action} {l : Listener}

/-- A process is no more than its actions and its ending. -/
theorem ext_actions (ha : p.actions = q.actions) (he : p.ending = q.ending) : p = q := by
  induction p generalizing q with
  | done a => cases q <;> cases ha <;> cases he; rfl
  | fail f => cases q <;> cases ha <;> cases he; rfl
  | hang => cases q <;> cases ha <;> cases he; rfl
  | act a next ih =>
      cases q with
      | act b next' =>
          obtain ⟨rfl, hrest⟩ := List.cons.inj ha
          have hnext : next = next' := funext fun _ => ih () hrest he
          rw [hnext]
      | _ => cases ha

theorem exists_act (hp : p.actions = a :: as) :
    ∃ next, p = act a next ∧ (next ()).actions = as := by
  cases p with
  | act b next =>
      obtain ⟨rfl, hrest⟩ := List.cons.inj hp
      exact ⟨next, rfl, hrest⟩
  | _ => cases hp

theorem watch_stopped (hp : p.actions = a :: as) (hs : l.stops h a = true) :
    p.watch l h = (h, .failed .cancelled) := by
  obtain ⟨next, rfl, -⟩ := exists_act hp
  rw [watch_act, if_pos hs]

/-- Of two processes that begin alike both are cut short there, or neither is. -/
theorem watch_alike (l : Listener) (hp : p.actions = as ++ bs) (hq : q.actions = as ++ cs)
    (h : List Action) :
    (∃ h', p.watch l h = (h', .failed .cancelled) ∧ q.watch l h = (h', .failed .cancelled)) ∨
      ∃ p' q' : Process α, (p'.actions = bs ∧ p'.ending = p.ending) ∧ q'.actions = cs ∧
        p.watch l h = p'.watch l (h ++ as) ∧ q.watch l h = q'.watch l (h ++ as) := by
  induction as generalizing p q h with
  | nil => exact .inr ⟨p, q, ⟨hp, rfl⟩, hq, by simp, by simp⟩
  | cons a as ih =>
      obtain ⟨next, rfl, hp'⟩ := exists_act hp
      obtain ⟨next', rfl, hq'⟩ := exists_act hq
      rw [watch_act, watch_act]
      split
      · exact .inl ⟨h, rfl, rfl⟩
      · have hrest := ih hp' hq' (h ++ [a])
        rwa [List.append_assoc] at hrest

/-- Where a process tells of one more event and finishes and another goes on, a listener who would
cut both there or neither cuts both at the same place, or hears the first to its end. -/
theorem watch_past {e : Event} {first : Action} {x : α} (hp : p.actions = as ++ [.emit e])
    (hend : p.ending = .finished x) (hq : q.actions = as ++ first :: bs)
    (hfirst : l.stops (h ++ as) first = l.stops (h ++ as) (.emit e)) :
    (∃ h', p.watch l h = (h', .failed .cancelled) ∧ q.watch l h = (h', .failed .cancelled)) ∨
      p.watch l h = (h ++ as ++ [.emit e], .finished x) ∧ h ++ as <+: (q.watch l h).1 := by
  rcases watch_alike l hp hq h with hcut | ⟨p', q', ⟨hpa, hpe⟩, hqa, hp', hq'⟩
  · exact .inl hcut
  rw [hp', hq']
  cases hs : l.stops (h ++ as) (.emit e) with
  | true => exact .inl ⟨_, watch_stopped hpa hs, watch_stopped hqa (hfirst.trans hs)⟩
  | false =>
      have hlast : p' = act (.emit e) fun _ => done x := ext_actions hpa (hpe.trans hend)
      refine .inr ⟨?_, prefix_watch ..⟩
      rw [hlast, watch_act, hs]
      rfl

end Process

namespace Agent

/-! ## Courses with more turns left -/

namespace Course

variable {a : Agent} {model : String} {left count : Nat} {messages : Conversation}
  {rounds rounds' : List Round} {close close' : Close}

theorem unique (h : Course a model left count messages rounds close)
    (h' : Course a model left count messages rounds' close') :
    rounds = rounds' ∧ close = close' := by
  induction h generalizing rounds' with
  | capped => cases h'; exact ⟨rfl, rfl⟩
  | completed ho hc => cases h' <;> simp_all
  | failed ho => cases h' <;> simp_all
  | silent ho => cases h' <;> simp_all
  | stuck ho hc hr => cases h' <;> simp_all
  | round ho hc hr hrest ih =>
      cases h' with
      | round ho' hc' hr' hrest' =>
          cases hr.symm.trans hr'
          obtain ⟨rfl, rfl⟩ := ih hrest'
          exact ⟨rfl, rfl⟩
      | _ => simp_all

/-- What the loop does can be read off its course. -/
theorem actions_turns (h : Course a model left count messages rounds close) :
    (turns a model left count messages).actions = rounds.flatMap Round.actions ++ close.actions ∧
      (turns a model left count messages).ending = close.ending := by
  obtain ⟨rounds', close', h', hactions, hending⟩ := exists_course a model left count messages
  obtain ⟨rfl, rfl⟩ := h.unique h'
  exact ⟨hactions, hending⟩

/-- With more turns left, the loop has the same course, or it goes on where it had to stop. -/
theorem raise (h : Course a model left count messages rounds close) (more : Nat) :
    Course a model (left + more) count messages rounds close ∧
        (∀ o, close.ending = .finished o → o.stop = .completed) ∨
      ∃ o, close = .capped o ∧ o.stop = .maxIterations ∧ rounds.length = left ∧
        ∀ later close', Course a model more (count + left) o.messages later close' →
          Course a model (left + more) count messages (rounds ++ later) close' := by
  induction h with
  | capped => exact .inr ⟨_, rfl, rfl, rfl, fun _ _ h' => by rwa [Nat.zero_add]⟩
  | completed ho hc =>
      rw [Nat.add_right_comm]
      exact .inl ⟨.completed ho hc, fun _ he => by cases he; rfl⟩
  | failed ho =>
      rw [Nat.add_right_comm]
      exact .inl ⟨.failed ho, nofun⟩
  | silent ho =>
      rw [Nat.add_right_comm]
      exact .inl ⟨.silent ho, nofun⟩
  | stuck ho hc hr =>
      rw [Nat.add_right_comm]
      exact .inl ⟨.stuck ho hc hr, nofun⟩
  | round ho hc hr hrest ih =>
      rw [Nat.add_right_comm]
      rcases ih with ⟨hsame, hstop⟩ | ⟨o, rfl, hstop, hlength, hgo⟩
      · exact .inl ⟨.round ho hc hr hsame, hstop⟩
      · refine .inr ⟨o, rfl, hstop, congrArg (· + 1) hlength, fun later close' h' => ?_⟩
        refine .round ho hc hr (hgo later close' ?_)
        rwa [Nat.add_assoc, Nat.add_comm 1]

/-- A run that finishes has kept the conversation it began with. -/
theorem messages_prefix (h : Course a model left count messages rounds close) {o : RunOutcome}
    (ho : close.ending = .finished o) : messages <+: o.messages := by
  induction h with
  | capped => cases ho; exact List.prefix_rfl
  | completed => cases ho; exact List.prefix_append ..
  | failed | silent | stuck => cases ho
  | round _ _ _ _ ih => exact (List.prefix_append ..).trans (ih ho)

end Course

/-! ## What is told of the two runs -/

/-- The loop begins with an event or with a look at the client. -/
theorem exists_first (a : Agent) (model : String) (left count : Nat) (messages : Conversation) :
    ∃ first rest, (turns a model left count messages).actions = first :: rest ∧
      (first = .heed ∨ ∃ e, first = .emit e) := by
  cases left with
  | zero => exact ⟨_, _, rfl, .inr ⟨_, rfl⟩⟩
  | succ left => exact ⟨_, _, rfl, .inl rfl⟩

/-- With more turns the same is heard of the loop, or more from where it had to stop. -/
theorem watch_turns_add {l : Listener} (hl : ∀ h e, l.stops h (.emit e) = l.stops h .heed)
    (a : Agent) (model : String) (cap more : Nat) (messages : Conversation) :
    let heard (n : Nat) := (turns a model n 0 messages).watch l []
    heard (cap + more) = heard cap ∧
        (∀ o, (heard cap).2 = .finished o → o.stop = .completed) ∨
      ∃ (rounds : List Round) (o : RunOutcome), heard cap =
          (rounds.flatMap Round.actions ++ [.emit (.done (some .maxIterations))], .finished o) ∧
        o.stop = .maxIterations ∧ rounds.length = cap ∧
        rounds.flatMap Round.actions <+: (heard (cap + more)).1 ∧
        ∀ o', (heard (cap + more)).2 = .finished o' → o.messages <+: o'.messages := by
  intro heard
  obtain ⟨rounds, close, hcourse, hp, hpe⟩ := exists_course a model cap 0 messages
  rcases hcourse.raise more with ⟨hsame, hcompleted⟩ | ⟨o, rfl, hstop, hlength, hgo⟩
  · obtain ⟨hq, hqe⟩ := hsame.actions_turns
    refine .inl ⟨?_, fun o ho => hcompleted o (hpe.symm.trans (Process.watch_finished ho).2)⟩
    simp only [heard, Process.ext_actions (hq.trans hp.symm) (hqe.trans hpe.symm)]
  · -- what comes instead of the last event of the shorter run
    obtain ⟨later, close', hlater, -, -⟩ := exists_course a model more (0 + cap) o.messages
    obtain ⟨first, rest, hfirst, hkind⟩ := exists_first a model more (0 + cap) o.messages
    obtain ⟨hq, hqe⟩ := (hgo later close' hlater).actions_turns
    rw [List.flatMap_append, List.append_assoc, ← hlater.actions_turns.1, hfirst] at hq
    have hstops (h : List Action) :
        l.stops h first = l.stops h (.emit (.done (some .maxIterations))) := by
      rcases hkind with rfl | ⟨e, rfl⟩ <;> simp only [hl]
    rcases Process.watch_past hp hpe hq (hstops _) with ⟨h, hcut, hcut'⟩ | ⟨hwhole, hmore⟩
    · exact .inl ⟨hcut'.trans hcut.symm, fun o ho => by simp [heard, hcut] at ho⟩
    · refine .inr ⟨rounds, o, hwhole, hstop, hlength, hmore, fun o' ho' => ?_⟩
      exact hlater.messages_prefix (hqe.symm.trans (Process.watch_finished ho').2)

/-- The agent with another cap. -/
def withCap (a : Agent) (cap : Nat) : Agent :=
  { a with config := { a.config with maxIterations := cap } }

theorem turns_withCap (a : Agent) (cap : Nat) (model : String) (left count : Nat)
    (messages : Conversation) :
    turns (a.withCap cap) model left count messages = turns a model left count messages := by
  induction left generalizing count messages with
  | zero => rfl
  | succ left ih => simp only [turns, withCap] at ih ⊢; simp only [ih]

theorem run_withCap (a : Agent) {r : ChatRequest} (hne : r.messages ≠ []) (cap : Nat) :
    (a.withCap cap).run r =
      turns a r.model cap 0 (Conversation.withSystem a.config.systemPrompt r.messages) := by
  rw [run, if_neg (by simpa using hne), turns_withCap]
  rfl

/-- A run with a higher cap is the same run if that with the lower one is completed or fails, and
goes on where that one stops otherwise. -/
theorem follow_withCap (a : Agent) (r : ChatRequest) {cap cap' : Nat} (hle : cap ≤ cap') :
    let run (n : Nat) := ((a.withCap n).run r).follow .patient .empty
    ((∀ o, (run cap).2 = .finished o → o.stop = .completed) → run cap' = run cap) ∧
      ∀ o, (run cap).2 = .finished o → o.stop = .maxIterations →
        ∃ told later, (run cap).1.events = told ++ [.done (some .maxIterations)] ∧
          (run cap').1.events = told ++ later ∧
          (run cap).1.requests.length = cap ∧
          (run cap).1.requests <+: (run cap').1.requests ∧
          ∀ o', (run cap').2 = .finished o' → o.messages <+: o'.messages := by
  intro run
  by_cases hne : r.messages = []
  · have hrun (n : Nat) : run n = (.empty, .failed .noMessages) := by
      simp only [run, Agent.run, hne]
      rfl
    simp [hrun]
  let heard (n : Nat) :=
    (turns a r.model n 0 (Conversation.withSystem a.config.systemPrompt r.messages)).watch
      Client.patient.listener []
  have hrun (n : Nat) : run n = (.ofHistory (heard n).1, (heard n).2) := by
    simp only [run, a.run_withCap hne]
    exact Process.follow_eq_watch .patient _ []
  have hpatient (h : List Action) (e : Event) :
      Client.patient.listener.stops h (.emit e) = Client.patient.listener.stops h .heed := by
    simp [Listener.stops, Client.takes, Client.heard, Client.patient]
  obtain ⟨more, rfl⟩ := Nat.exists_eq_add_of_le hle
  rw [hrun, hrun]
  rcases watch_turns_add hpatient a r.model cap more _ with
    ⟨hsame, hcompleted⟩ | ⟨rounds, o, hwhole, hstop, hlength, ⟨grown, hgrown⟩, hmessages⟩
  · have hsame : heard (cap + more) = heard cap := hsame
    refine ⟨fun _ => by rw [hsame], fun o ho hstop => ?_⟩
    simp [hcompleted o ho] at hstop
  · have hwhole : heard cap = _ := hwhole
    have hgrown : _ = (heard (cap + more)).1 := hgrown
    rw [hwhole, ← hgrown]
    refine ⟨fun hcompleted => ?_, fun o' ho' _ => ?_⟩
    · simp [hcompleted o rfl] at hstop
    · cases ho'
      refine ⟨rounds.flatMap (·.events), Action.events grown, ?_, ?_, ?_, ?_, hmessages⟩
      · simp [Round.events_flatMap_actions]
      · simp [Round.events_flatMap_actions]
      · simp [Round.requests_flatMap_actions, hlength]
      · simp [Round.requests_flatMap_actions]

theorem follow_withCap_hello :
    let run (n : Nat) :=
      (((ofRegistry ⟨"Be brief.", 9, .sequential⟩ .echoing .echoing).withCap n).run .hello).follow
        .patient .empty
    (∃ told later, (run 1).1.events = told ++ [.done (some .maxIterations)] ∧
        (run 2).1.events = told ++ later ∧ (run 1).1.requests <+: (run 2).1.requests) ∧
      run 3 = run 2 := by
  intro run
  obtain ⟨told, later, htold, hlater, -, hrequests, -⟩ :=
    (follow_withCap (ofRegistry ⟨"Be brief.", 9, .sequential⟩ .echoing .echoing) .hello
      (by decide : 1 ≤ 2)).2 _ rfl rfl
  have hsame :=
    (follow_withCap (ofRegistry ⟨"Be brief.", 9, .sequential⟩ .echoing .echoing) .hello
      (by decide : 2 ≤ 3)).1 fun o ho => by cases ho; rfl
  exact ⟨⟨told, later, htold, hlater, hrequests⟩, hsame⟩

end Agent
end ChatAgent
