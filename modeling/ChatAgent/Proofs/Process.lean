import ChatAgent.Agent.Process

/-!
# Histories of processes

A process has a fixed sequence of actions and a fixed ending when nobody cuts it short. Whoever
listens to it sees the beginning of that sequence (`Process.watch_prefix`), and sees all of it if
the process finishes. Following a process with a client is one way of listening
(`Process.follow_eq_watch`).
-/

namespace ChatAgent

variable {α β : Type}

/-! ## Actions -/

namespace Action

@[simp] def event? : Action → Option Event
  | emit e => some e
  | _ => none

@[simp] def request? : Action → Option BackendRequest
  | ask r => some r
  | _ => none

@[simp] def step? : Action → Option Step
  | step s => some s
  | _ => none

def events (as : List Action) : List Event := as.filterMap event?

def requests (as : List Action) : List BackendRequest := as.filterMap request?

def steps (as : List Action) : List Step := as.filterMap step?

@[simp] theorem events_nil : events [] = [] := rfl
@[simp] theorem requests_nil : requests [] = [] := rfl
@[simp] theorem steps_nil : steps [] = [] := rfl

@[simp] theorem events_cons (a : Action) (as : List Action) :
    events (a :: as) = a.event?.toList ++ events as := by
  cases a <;> rfl

@[simp] theorem requests_cons (a : Action) (as : List Action) :
    requests (a :: as) = a.request?.toList ++ requests as := by
  cases a <;> rfl

@[simp] theorem steps_cons (a : Action) (as : List Action) :
    steps (a :: as) = a.step?.toList ++ steps as := by
  cases a <;> rfl

@[simp] theorem events_append (as bs : List Action) : events (as ++ bs) = events as ++ events bs :=
  List.filterMap_append

@[simp] theorem requests_append (as bs : List Action) :
    requests (as ++ bs) = requests as ++ requests bs :=
  List.filterMap_append

@[simp] theorem steps_append (as bs : List Action) : steps (as ++ bs) = steps as ++ steps bs :=
  List.filterMap_append

/-- What a constructor of actions holds is found where that action is. -/
theorem mem_filterMap {f : Action → Option β} {c : β → Action}
    (hf : ∀ a b, f a = some b ↔ a = c b) {b : β} {as : List Action} :
    b ∈ as.filterMap f ↔ c b ∈ as := by
  simp only [List.mem_filterMap, hf]
  exact ⟨fun ⟨_, ha, he⟩ => he ▸ ha, fun h => ⟨_, h, rfl⟩⟩

theorem mem_events {e : Event} {as : List Action} : e ∈ events as ↔ emit e ∈ as :=
  mem_filterMap fun a e => by cases a <;> simp

theorem mem_requests {r : BackendRequest} {as : List Action} : r ∈ requests as ↔ ask r ∈ as :=
  mem_filterMap fun a r => by cases a <;> simp

theorem mem_steps {s : Step} {as : List Action} : s ∈ steps as ↔ step s ∈ as :=
  mem_filterMap fun a s => by cases a <;> simp

def emits (es : List Event) : List Action := es.map emit

@[simp] theorem emits_nil : emits [] = [] := rfl

@[simp] theorem emits_append (es fs : List Event) : emits (es ++ fs) = emits es ++ emits fs :=
  List.map_append

@[simp] theorem events_emits (es : List Event) : events (emits es) = es := by
  induction es with
  | nil => rfl
  | cons e es ih => exact congrArg (e :: ·) ih

@[simp] theorem requests_emits (es : List Event) : requests (emits es) = [] := by
  induction es with
  | nil => rfl
  | cons e es ih => exact ih

@[simp] theorem steps_emits (es : List Event) : steps (emits es) = [] := by
  induction es with
  | nil => rfl
  | cons e es ih => exact ih

/-- The action in which a step of a tool shows: a pause shows only in that the run looks up. -/
def ofStep : Step → Action
  | .pause => heed
  | s => step s

@[simp] theorem events_map_ofStep (ss : List Step) : events (ss.map ofStep) = [] := by
  induction ss with
  | nil => rfl
  | cons s ss ih => cases s <;> exact ih

@[simp] theorem requests_map_ofStep (ss : List Step) : requests (ss.map ofStep) = [] := by
  induction ss with
  | nil => rfl
  | cons s ss ih => cases s <;> exact ih

@[simp] theorem steps_map_ofStep (ss : List Step) :
    steps (ss.map ofStep) = ss.filter (· ≠ .pause) := by
  induction ss with
  | nil => rfl
  | cons s ss ih => cases s <;> simp [ofStep, ih]

end Action

namespace Trace

def after (t : Trace) (as : List Action) : Trace :=
  ⟨t.events ++ Action.events as, t.requests ++ Action.requests as, t.steps ++ Action.steps as⟩

@[simp] theorem events_after (t : Trace) (as : List Action) :
    (t.after as).events = t.events ++ Action.events as := rfl

@[simp] theorem requests_after (t : Trace) (as : List Action) :
    (t.after as).requests = t.requests ++ Action.requests as := rfl

@[simp] theorem steps_after (t : Trace) (as : List Action) :
    (t.after as).steps = t.steps ++ Action.steps as := rfl

def ofHistory (h : List Action) : Trace := empty.after h

@[simp] theorem events_ofHistory (h : List Action) : (ofHistory h).events = Action.events h := rfl

@[simp] theorem requests_ofHistory (h : List Action) :
    (ofHistory h).requests = Action.requests h := rfl

@[simp] theorem steps_ofHistory (h : List Action) : (ofHistory h).steps = Action.steps h := rfl

@[simp] theorem ofHistory_nil : ofHistory [] = empty := rfl

theorem ofHistory_emit (h : List Action) (e : Event) :
    ofHistory (h ++ [.emit e]) = { ofHistory h with events := (ofHistory h).events ++ [e] } := by
  simp [ofHistory, after]

@[simp] theorem ofHistory_heed (h : List Action) : ofHistory (h ++ [.heed]) = ofHistory h := by
  simp [ofHistory, after]

theorem ofHistory_ask (h : List Action) (r : BackendRequest) :
    ofHistory (h ++ [.ask r]) = { ofHistory h with requests := (ofHistory h).requests ++ [r] } := by
  simp [ofHistory, after]

theorem ofHistory_step (h : List Action) (s : Step) :
    ofHistory (h ++ [.step s]) = { ofHistory h with steps := (ofHistory h).steps ++ [s] } := by
  simp [ofHistory, after]

end Trace

/-! ## The actions of a process -/

namespace Process

/-- All that a process does when nobody cuts it short; `ending` is how it ends then. -/
def actions : Process α → List Action
  | act a next => a :: actions (next ())
  | done _ | fail _ | hang => []

def ending : Process α → Ending α
  | done a => .finished a
  | fail f => .failed f
  | hang => .hung
  | act _ next => ending (next ())

@[simp] theorem actions_done (a : α) : (done a).actions = [] := rfl
@[simp] theorem actions_fail (f : Failure) : (fail f : Process α).actions = [] := rfl
@[simp] theorem actions_hang : (hang : Process α).actions = [] := rfl
@[simp] theorem actions_act (a : Action) (next : Unit → Process α) :
    (act a next).actions = a :: (next ()).actions := rfl

@[simp] theorem ending_done (a : α) : (done a).ending = .finished a := rfl
@[simp] theorem ending_fail (f : Failure) : (fail f : Process α).ending = .failed f := rfl
@[simp] theorem ending_hang : (hang : Process α).ending = .hung := rfl
@[simp] theorem ending_act (a : Action) (next : Unit → Process α) :
    (act a next).ending = (next ()).ending := rfl

/-! A process that goes on with what came of another: the other's actions come first, and the rest
only if it finishes. -/

theorem actions_bind_finished {p : Process α} {a : α} (h : p.ending = .finished a)
    (k : α → Process β) : (p.bind k).actions = p.actions ++ (k a).actions := by
  induction p with
  | done b => cases h; rfl
  | fail f => cases h
  | hang => cases h
  | act b next ih => exact congrArg (b :: ·) (ih () h)

theorem ending_bind_finished {p : Process α} {a : α} (h : p.ending = .finished a)
    (k : α → Process β) : (p.bind k).ending = (k a).ending := by
  induction p with
  | done b => cases h; rfl
  | fail f => cases h
  | hang => cases h
  | act b next ih => exact ih () h

theorem actions_bind_hung {p : Process α} (h : p.ending = .hung) (k : α → Process β) :
    (p.bind k).actions = p.actions := by
  induction p with
  | done b => cases h
  | fail f => cases h
  | hang => rfl
  | act b next ih => exact congrArg (b :: ·) (ih () h)

theorem ending_bind_hung {p : Process α} (h : p.ending = .hung) (k : α → Process β) :
    (p.bind k).ending = .hung := by
  induction p with
  | done b => cases h
  | fail f => cases h
  | hang => rfl
  | act b next ih => exact ih () h

@[simp] theorem actions_attempt (p : Process α) : p.attempt.actions = p.actions := by
  induction p with
  | act a next ih => exact congrArg (a :: ·) (ih ())
  | _ => rfl

theorem ending_attempt (p : Process α) :
    p.attempt.ending =
      match p.ending with
      | .finished a => .finished (.ok a)
      | .failed f => .finished (.error f)
      | .hung => .hung := by
  induction p with
  | act a next ih => exact ih ()
  | _ => rfl

@[simp] theorem actions_emitAll (es : List Event) : (emitAll es).actions = Action.emits es := by
  induction es with
  | nil => rfl
  | cons e es ih => exact congrArg (Action.emit e :: ·) ih

@[simp] theorem ending_emitAll (es : List Event) : (emitAll es).ending = .finished () := by
  induction es with
  | nil => rfl
  | cons e es ih => exact ih

@[simp] theorem actions_takeSteps (ss : List Step) :
    (takeSteps ss).actions = ss.map Action.ofStep := by
  induction ss with
  | nil => rfl
  | cons s ss ih => cases s <;> exact congrArg (_ :: ·) ih

@[simp] theorem ending_takeSteps (ss : List Step) : (takeSteps ss).ending = .finished () := by
  induction ss with
  | nil => rfl
  | cons s ss ih => cases s <;> exact ih

@[simp] theorem actions_ofActivity (a : Activity α) :
    (ofActivity a).actions = a.steps.map Action.ofStep := by
  rw [ofActivity, actions_bind_finished (ending_takeSteps _)]
  cases a.result <;> simp

theorem ending_ofActivity (a : Activity α) :
    (ofActivity a).ending =
      match a.result with
      | some x => .finished x
      | none => .hung := by
  rw [ofActivity, ending_bind_finished (ending_takeSteps _)]
  cases a.result <;> rfl

end Process

/-! ## Listening to a process -/

/-- Anyone who listens to a process. What they do may depend on all that has happened. -/
structure Listener where
  /-- Whether the next event is taken. -/
  takes : List Action → Bool
  /-- Whether the process can tell that the listener has gone away. -/
  gone : List Action → Bool

/-- Whether whoever listens cuts a process short where this action comes next. -/
def Listener.stops (l : Listener) (h : List Action) : Action → Bool
  | .emit _ => !l.takes h
  | .heed => l.gone h
  | .ask _ | .step _ => false

namespace Process

/-- What has happened, after a history, when a process has been listened to, and how it ended. -/
def watch (l : Listener) : Process α → List Action → List Action × Ending α
  | done a, h => (h, .finished a)
  | fail f, h => (h, .failed f)
  | hang, h => (h, if l.gone h then .failed .cancelled else .hung)
  | act (.emit e) next, h =>
    if l.takes h then watch l (next ()) (h ++ [.emit e]) else (h, .failed .cancelled)
  | act .heed next, h =>
    if l.gone h then (h, .failed .cancelled) else watch l (next ()) (h ++ [.heed])
  | act (.ask r) next, h => watch l (next ()) (h ++ [.ask r])
  | act (.step s) next, h => watch l (next ()) (h ++ [.step s])

/-- The four kinds of actions differ only in what cuts a process short before them. -/
theorem watch_act (l : Listener) (a : Action) (next : Unit → Process α) (h : List Action) :
    (act a next).watch l h =
      if l.stops h a then (h, .failed .cancelled) else (next ()).watch l (h ++ [a]) := by
  cases a with
  | emit e => cases ht : l.takes h <;> simp [watch, Listener.stops, ht]
  | heed => rfl
  | ask r => rfl
  | step s => rfl

/-- A process that goes on with what came of another is listened to in two parts. -/
theorem watch_bind (l : Listener) (p : Process α) (k : α → Process β) (h : List Action) :
    (p.bind k).watch l h =
      match p.watch l h with
      | (h', .finished a) => (k a).watch l h'
      | (h', .failed f) => (h', .failed f)
      | (h', .hung) => (h', .hung) := by
  induction p generalizing h with
  | done a => rfl
  | fail f => rfl
  | hang => cases hg : l.gone h <;> simp [bind, watch, hg]
  | act a next ih =>
      rw [bind, watch_act, watch_act]
      split
      · rfl
      · exact ih () _

/-- Whatever a listener does, what happens is a beginning of what the process does by itself. -/
theorem watch_prefix (l : Listener) (p : Process α) (h : List Action) :
    (p.watch l h).1 <+: h ++ p.actions := by
  induction p generalizing h with
  | done a => simp [watch]
  | fail f => simp [watch]
  | hang => simp [watch]
  | act a next ih =>
      rw [watch_act]
      split
      · exact List.prefix_append _ _
      · have hnext := ih () (h ++ [a])
        rwa [List.append_assoc] at hnext

theorem prefix_watch (l : Listener) (p : Process α) (h : List Action) :
    h <+: (p.watch l h).1 := by
  induction p generalizing h with
  | done a => exact List.prefix_rfl
  | fail f => exact List.prefix_rfl
  | hang => exact List.prefix_rfl
  | act a next ih =>
      rw [watch_act]
      split
      · exact List.prefix_rfl
      · exact (List.prefix_append ..).trans (ih () _)

/-- Only what a listener does after what can have happened matters. -/
theorem watch_congr {l l' : Listener} {p : Process α} {h : List Action}
    (hl : ∀ h', h' <+: h ++ p.actions → l.takes h' = l'.takes h' ∧ l.gone h' = l'.gone h') :
    p.watch l h = p.watch l' h := by
  induction p generalizing h with
  | done a => rfl
  | fail f => rfl
  | hang => simp only [watch, (hl h (List.prefix_append ..)).2]
  | act a next ih =>
      obtain ⟨ht, hg⟩ := hl h (List.prefix_append ..)
      have hstops : l.stops h a = l'.stops h a := by cases a <;> simp [Listener.stops, ht, hg]
      rw [watch_act, watch_act, hstops, ih () (by rwa [List.append_assoc])]

/-- A process that finishes has not been cut short. -/
theorem watch_finished {l : Listener} {p : Process α} {h : List Action} {a : α}
    (hf : (p.watch l h).2 = .finished a) :
    (p.watch l h).1 = h ++ p.actions ∧ p.ending = .finished a := by
  induction p generalizing h with
  | done b => exact ⟨by simp [watch], hf⟩
  | fail f => cases hf
  | hang =>
      simp only [watch] at hf
      split at hf <;> cases hf
  | act b next ih =>
      rw [watch_act] at hf ⊢
      split at hf
      · cases hf
      · rename_i hs
        rw [if_neg hs]
        obtain ⟨hwhole, hend⟩ := ih () hf
        exact ⟨by rw [hwhole, List.append_assoc]; rfl, hend⟩

/-- A listener who always takes and never goes away hears a process to its end. -/
theorem watch_undisturbed {l : Listener} {p : Process α} {h : List Action}
    (hl : ∀ h', h' <+: h ++ p.actions → l.takes h' = true ∧ l.gone h' = false) :
    p.watch l h = (h ++ p.actions, p.ending) := by
  induction p generalizing h with
  | done a => simp [watch]
  | fail f => simp [watch]
  | hang => simp [watch, (hl h (List.prefix_append ..)).2]
  | act a next ih =>
      obtain ⟨ht, hg⟩ := hl h (List.prefix_append ..)
      have hstays : l.stops h a = false := by cases a <;> simp [Listener.stops, ht, hg]
      have hnext := ih () (h := h ++ [a]) (by rwa [List.append_assoc])
      rw [watch_act, hstays]
      rwa [List.append_assoc] at hnext

end Process

/-! ## Clients as listeners -/

namespace Client

def listener (c : Client) : Listener :=
  ⟨fun h => c.takes (.ofHistory h), fun h => c.heard (.ofHistory h)⟩

@[simp] theorem takes_listener (c : Client) (h : List Action) :
    c.listener.takes h = c.takes (.ofHistory h) := rfl

@[simp] theorem gone_listener (c : Client) (h : List Action) :
    c.listener.gone h = c.heard (.ofHistory h) := rfl

/-- Where no tool makes a client go away, it goes by the number of events. -/
theorem gone_ofHistory (c : Client) {h : List Action} (hd : .step .dismiss ∉ h) :
    c.gone (.ofHistory h) = c.leavesAfter.any (· ≤ (Action.events h).length) := by
  have hn : (Trace.ofHistory h).steps.contains .dismiss = false := by
    simpa [Action.mem_steps] using hd
  rw [gone, hn, Bool.false_or]
  rfl

end Client

/-- To follow a process with a client is to listen to it and to keep only the trace. -/
theorem Process.follow_eq_watch (c : Client) (p : Process α) (h : List Action) :
    p.follow c (.ofHistory h) =
      (.ofHistory (p.watch c.listener h).1, (p.watch c.listener h).2) := by
  induction p generalizing h with
  | done a => rfl
  | fail f => rfl
  | hang => rfl
  | act a next ih =>
      have ih := ih () (h ++ [a])
      cases a with
      | emit e =>
          rw [Trace.ofHistory_emit] at ih
          cases ht : c.takes (.ofHistory h) with
          | true =>
              have hl : c.listener.takes h = true := ht
              simpa only [follow, watch, ht, hl, ↓reduceIte] using ih
          | false =>
              have hl : c.listener.takes h = false := ht
              simp only [follow, watch, ht, hl, Bool.false_eq_true, ↓reduceIte]
      | heed =>
          rw [Trace.ofHistory_heed] at ih
          cases hg : c.heard (.ofHistory h) with
          | true =>
              have hl : c.listener.gone h = true := hg
              simp only [follow, watch, hg, hl, ↓reduceIte]
          | false =>
              have hl : c.listener.gone h = false := hg
              simpa only [follow, watch, hg, hl, Bool.false_eq_true, ↓reduceIte] using ih
      | ask r =>
          simp only [follow, watch]
          rwa [Trace.ofHistory_ask] at ih
      | step s =>
          simp only [follow, watch]
          rwa [Trace.ofHistory_step] at ih

/-- A patient client, whom no tool makes go away, sees all that a process does. -/
theorem Process.follow_patient {p : Process α} (hd : .step .dismiss ∉ p.actions) :
    p.follow .patient .empty = (.ofHistory p.actions, p.ending) := by
  have hstays (h : List Action) (hp : h <+: p.actions) :
      Client.patient.gone (.ofHistory h) = false :=
    Client.gone_ofHistory _ fun hm => hd (hp.subset hm)
  have hw : p.watch Client.patient.listener [] = (p.actions, p.ending) := by
    refine watch_undisturbed fun h hp => ⟨?_, ?_⟩
    · rw [Client.takes_listener, Client.takes, hstays h hp]
      rfl
    · rw [Client.gone_listener, Client.heard, hstays h hp]
      rfl
  rw [← Trace.ofHistory_nil, follow_eq_watch, hw]

end ChatAgent
