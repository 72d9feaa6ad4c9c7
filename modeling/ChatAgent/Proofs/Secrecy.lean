import ChatAgent.Proofs.LocalCode
import Mathlib.Data.List.Forall2

/-!
# What stays inside

The details of an internal error reach neither the client nor the model. Two registries whose tools
differ in nothing else make runs that nobody outside can tell apart (`Agent.run_of_alike`),
whichever of their tools are called, in whichever mode and however often.
-/

namespace ChatAgent

variable {α β : Type}

/-! ## Tools that differ in the details of internal errors -/

/-- Two outcomes that are the same, but for the details of internal errors. -/
inductive Outcome.Alike : Outcome → Outcome → Prop
  | same (o : Outcome) : Alike o o
  | internal (message message' : String) (source source' : Option String) :
      Alike (.internalError message source) (.internalError message' source')

theorem Outcome.Alike.toResult_eq {o o' : Outcome} (h : o.Alike o') (id : String) :
    o.toResult id = o'.toResult id := by
  cases h <;> rfl

/-- Two tools with the same description that have alike outcomes. They may go about it in different
ways. -/
structure Tool.Alike (t t' : Tool) : Prop where
  definition : t.definition = t'.definition
  result : ∀ arguments, Option.Rel Outcome.Alike (t.run arguments).result (t'.run arguments).result

/-- Two alike tools that also do the same. -/
structure Tool.AlikeInSteps (t t' : Tool) : Prop extends Tool.Alike t t' where
  steps : ∀ arguments, (t.run arguments).steps = (t'.run arguments).steps

theorem Tool.Alike.map_toResult {t t' : Tool} (h : t.Alike t') (arguments : Json) (id : String) :
    (t.run arguments).result.map (·.toResult id) =
      (t'.run arguments).result.map (·.toResult id) := by
  have hresult := h.result arguments
  revert hresult
  generalize (t.run arguments).result = o, (t'.run arguments).result = o'
  rintro (⟨ho⟩ | _)
  · exact congrArg some (ho.toResult_eq id)
  · rfl

theorem Tool.AlikeInSteps.map_toResult {t t' : Tool} (h : t.AlikeInSteps t') (arguments : Json)
    (id : String) :
    (t.run arguments).map (·.toResult id) = (t'.run arguments).map (·.toResult id) := by
  rw [Activity.map, Activity.map, h.steps, h.toAlike.map_toResult]

namespace Registry

/-- Two registries with the same names, under which they have tools that are so related. -/
def Matches (R : Tool → Tool → Prop) (r r' : Registry) : Prop :=
  List.Forall₂ (fun x y => x.1 = y.1 ∧ R x.2 y.2) r.tools r'.tools

namespace Matches

variable {R : Tool → Tool → Prop} {r r' : Registry}

theorem mono {S : Tool → Tool → Prop} (h : r.Matches R r') (hRS : ∀ t t', R t t' → S t t') :
    r.Matches S r' :=
  List.Forall₂.imp (fun _ _ hxy => ⟨hxy.1, hRS _ _ hxy.2⟩) h

theorem get? (h : r.Matches R r') (name : String) :
    Option.Rel R (r.get? name) (r'.get? name) := by
  obtain ⟨ts⟩ := r
  obtain ⟨ts'⟩ := r'
  change List.Forall₂ _ ts ts' at h
  simp only [Registry.get?]
  induction h with
  | nil => exact .none
  | @cons x y ts ts' hxy _ ih =>
      obtain ⟨name', t⟩ := x
      obtain ⟨_, t'⟩ := y
      obtain ⟨rfl, ht⟩ : name' = _ ∧ R t t' := hxy
      rw [List.lookup_cons, List.lookup_cons]
      cases name == name' with
      | true => exact .some ht
      | false => exact ih

theorem offers_eq (h : r.Matches Tool.Alike r') : r.offers = r'.offers := by
  obtain ⟨ts⟩ := r
  obtain ⟨ts'⟩ := r'
  change List.Forall₂ _ ts ts' at h
  induction h with
  | nil => rfl
  | cons hxy _ ih =>
      simp only [offers, list, List.map_cons] at ih ⊢
      rw [hxy.2.definition, ih]

theorem result_execute (h : r.Matches Tool.Alike r') (call : ToolCall) :
    (r.execute call).result = (r'.execute call).result := by
  have ht := h.get? call.name
  simp only [execute]
  revert ht
  generalize r.get? call.name = t, r'.get? call.name = t'
  rintro (⟨ht⟩ | _)
  · exact ht.map_toResult ..
  · rfl

theorem execute_eq (h : r.Matches Tool.AlikeInSteps r') : r.execute = r'.execute := by
  funext call
  have ht := h.get? call.name
  simp only [execute]
  revert ht
  generalize r.get? call.name = t, r'.get? call.name = t'
  rintro (⟨ht⟩ | _)
  · exact congrArg (Activity.execution call) (ht.map_toResult ..)
  · rfl

end Matches

end Registry

/-! ## The two tools -/

/-- What has come of handing a call over is the same, but for what is said of an answer that cannot
be read. -/
inductive Delegation.AlikeAnswers :
    Except ServiceFault String → Except ServiceFault String → Prop
  | same (x : Except ServiceFault String) : AlikeAnswers x x
  | unreadable (reason reason' : String) :
      AlikeAnswers (.error (.invalidResponse reason)) (.error (.invalidResponse reason'))

/-- Two activities that do the same and have alike outcomes. -/
structure Activity.Alike (a b : Activity Outcome) : Prop where
  result : Option.Rel Outcome.Alike a.result b.result
  steps : a.steps = b.steps

theorem Activity.Alike.refl : ∀ a : Activity Outcome, a.Alike a
  | ⟨_, none⟩ => ⟨.none, rfl⟩
  | ⟨_, some o⟩ => ⟨.some (.same o), rfl⟩

namespace Tool

variable {send send' : Delegate}

theorem delegating_alike {call : Delegation}
    (h : Delegation.AlikeAnswers (send call) (send' call)) (instead : Activity Outcome) :
    (delegating send call instead).Alike (delegating send' call instead) := by
  simp only [delegating]
  revert h
  generalize send call = x, send' call = x'
  rintro (_ | ⟨reason, reason'⟩)
  · exact .refl _
  · exact ⟨.some (.internal reason reason' none none), rfl⟩

theorem withString_alike {use use' : String → Activity Outcome}
    (h : ∀ text, (use text).Alike (use' text)) (key : String) (arguments : Json) :
    (withString key arguments use).Alike (withString key arguments use') := by
  simp only [withString]
  split
  · exact h _
  · exact .refl _

theorem calculate_alike (h : ∀ d, Delegation.AlikeAnswers (send d) (send' d)) :
    (calculate send).AlikeInSteps (calculate send') := by
  have hrun arguments : ((calculate send).run arguments).Alike ((calculate send').run arguments) :=
    withString_alike (fun _ => delegating_alike (h _) _) _ _
  exact ⟨⟨by simp only [calculate], fun arguments => (hrun arguments).result⟩,
    fun arguments => (hrun arguments).steps⟩

theorem python_alike (h : ∀ d, Delegation.AlikeAnswers (send d) (send' d))
    (i : Option Interpreter) : (python send i).AlikeInSteps (python send' i) := by
  have hrun arguments : ((python send i).run arguments).Alike ((python send' i).run arguments) :=
    withString_alike (fun _ => delegating_alike (h _) _) _ _
  exact ⟨⟨by simp only [python], fun arguments => (hrun arguments).result⟩,
    fun arguments => (hrun arguments).steps⟩

end Tool

theorem Registry.builtins_alike {send send' : Tool.Delegate}
    (h : ∀ d, Delegation.AlikeAnswers (send d) (send' d)) (i : Option Interpreter) :
    (ofList [.calculate send, .python send i]).Matches Tool.AlikeInSteps
      (ofList [.calculate send', .python send' i]) := by
  rw [ofList_builtins, ofList_builtins]
  exact .cons ⟨rfl, Tool.calculate_alike h⟩ (.cons ⟨rfl, Tool.python_alike h i⟩ .nil)

namespace Service

/-- There is no answer in the response. -/
def Unreadable (r : Http.Response) : Prop :=
  r.ending = .broken ∨ r.ending = .whole ∧ Json.readBytes? ServiceAnswer.read r.body = none

theorem Unreadable.judgeResponse {r : Http.Response} (h : Unreadable r) (s : Service) :
    s.judgeResponse r = .error (.invalidResponse Http.badBody) := by
  rcases h with h | ⟨h, hbody⟩
  · simp only [Service.judgeResponse, h]
  · simp only [Service.judgeResponse, h, hbody]

/-- The same has come of two requests, or two responses that hold no answer. -/
def AlikeContacts (x y : Http.Contact) : Prop :=
  x = y ∨ ∃ a b, Unreadable a ∧ Unreadable b ∧ x = .response a ∧ y = .response b

theorem judge_alike {x y : Http.Contact} (h : AlikeContacts x y) (s : Service) :
    s.judge x = s.judge y := by
  rcases h with rfl | ⟨a, b, ha, hb, rfl, rfl⟩
  · rfl
  · simp only [judge, ha.judgeResponse, hb.judgeResponse]

end Service

/-! ## What is seen from outside -/

namespace Action

/-- Whether it is the client's or the backend's to see. -/
def isShown : Action → Bool
  | emit _ | ask _ => true
  | heed | step _ => false

/-- What the client and the backend see of a history. -/
def shown (h : List Action) : List Action := h.filter isShown

@[simp] theorem shown_append (h h' : List Action) : shown (h ++ h') = shown h ++ shown h' :=
  List.filter_append ..

@[simp] theorem shown_nil : shown [] = [] := rfl

@[simp] theorem shown_heed (h : List Action) : shown (heed :: h) = shown h := rfl

@[simp] theorem shown_map_ofStep (ss : List Step) : shown (ss.map ofStep) = [] := by
  induction ss with
  | nil => rfl
  | cons s ss ih => cases s <;> simpa [shown, isShown, ofStep] using ih

theorem events_shown (h : List Action) : events (shown h) = events h := by
  rw [events, shown, List.filterMap_filter]
  exact congrFun (congrArg _ (funext fun a => by cases a <;> rfl)) h

theorem requests_shown (h : List Action) : requests (shown h) = requests h := by
  rw [requests, shown, List.filterMap_filter]
  exact congrFun (congrArg _ (funext fun a => by cases a <;> rfl)) h

end Action

/-- The listener sees nothing else, so what it does depends on nothing else. -/
structure Listener.External (l : Listener) : Prop where
  takes : ∀ h h', Action.shown h = Action.shown h' → l.takes h = l.takes h'
  gone : ∀ h h', Action.shown h = Action.shown h' → l.gone h = l.gone h'

/-- The client as a listener whom no tool makes go away. -/
def Client.external (c : Client) : Listener :=
  ⟨fun h => c.listener.takes (Action.shown h), fun h => c.listener.gone (Action.shown h)⟩

theorem Client.external_external (c : Client) : c.external.External :=
  ⟨fun _ _ hs => congrArg c.listener.takes hs, fun _ _ hs => congrArg c.listener.gone hs⟩

namespace Process

/-- After histories that are the same from outside, what happens next is the same from outside. -/
def Indistinct (l : Listener) (p q : Process α) : Prop :=
  ∀ h h', Action.shown h = Action.shown h' →
    Action.shown (p.watch l h).1 = Action.shown (q.watch l h').1 ∧
      (p.watch l h).2 = (q.watch l h').2

namespace Indistinct

variable {l : Listener}

theorem refl (hl : l.External) (p : Process α) : p.Indistinct l p := by
  intro h h' hs
  induction p generalizing h h' with
  | done a => exact ⟨hs, rfl⟩
  | fail f => exact ⟨hs, rfl⟩
  | hang => simp [watch, hs, hl.gone h h' hs]
  | act a next ih =>
      have hstops : l.stops h a = l.stops h' a := by
        cases a <;> simp [Listener.stops, hl.takes h h' hs, hl.gone h h' hs]
      rw [watch_act, watch_act, hstops]
      split
      · exact ⟨hs, rfl⟩
      · exact ih () _ _ (by simp [hs])

theorem bind {p q : Process α} {k k' : α → Process β} (h : p.Indistinct l q)
    (hk : ∀ a, (k a).Indistinct l (k' a)) : (p.bind k).Indistinct l (q.bind k') := by
  intro h₀ h₀' hs
  obtain ⟨hshown, hending⟩ := h h₀ h₀' hs
  rw [watch_bind, watch_bind]
  revert hshown hending
  generalize p.watch l h₀ = x, q.watch l h₀' = y
  obtain ⟨h₁, e⟩ := x
  obtain ⟨h₁', e'⟩ := y
  rintro hshown (rfl : e = e')
  -- both parts have ended alike, so either both go on or neither does
  cases e with
  | finished a => exact hk a h₁ h₁' hshown
  | failed f => exact ⟨hshown, rfl⟩
  | hung => exact ⟨hshown, rfl⟩

theorem congruence (hl : l.External) : Congruence fun _ p q => p.Indistinct l q :=
  ⟨refl hl, bind⟩

end Indistinct

/-- While tools are at work, nothing is seen from outside. -/
theorem watch_ofActivity {l : Listener} (hl : l.External) (a : Activity α) {h : List Action}
    (hg : l.gone h = false) :
    (ofActivity a).watch l h =
      (h ++ a.steps.map .ofStep,
        match a.result with
        | some x => .finished x
        | none => .hung) := by
  have hwork (ss : List Step) (h : List Action) (hg : l.gone h = false) :
      (takeSteps ss).watch l h = (h ++ ss.map .ofStep, .finished ()) := by
    induction ss generalizing h with
    | nil => simp [takeSteps, watch]
    | cons s ss ih =>
        have hnext := ih (h ++ [.ofStep s])
          ((hl.gone _ _ (by simpa using Action.shown_map_ofStep [s])).trans hg)
        cases s <;> simpa [takeSteps, watch, hg, Action.ofStep] using hnext
  have hafter : l.gone (h ++ a.steps.map .ofStep) = false :=
    (hl.gone _ _ (by simp)).trans hg
  rw [ofActivity, watch_bind, hwork _ _ hg]
  cases a.result <;> simp [watch, hafter]

/-- So it cannot be told from outside how tools come by their results. -/
theorem Indistinct.ofActivity {l : Listener} (hl : l.External) {a b : Activity α}
    (h : a.result = b.result) :
    (act .heed fun _ => ofActivity a).Indistinct l (act .heed fun _ => ofActivity b) := by
  intro h₀ h₀' hs
  -- the first look decides, for the listener learns nothing before the tools are done
  simp only [watch, hl.gone h₀ h₀' hs]
  split
  · exact ⟨hs, rfl⟩
  · rename_i hg
    have hstays (h' : List Action) (hs' : Action.shown h' = Action.shown h₀') :
        l.gone (h' ++ [.heed]) = false :=
      (hl.gone (h' ++ [.heed]) h₀' (by simpa using hs')).trans (by simpa using hg)
    rw [watch_ofActivity hl a (hstays h₀ hs), watch_ofActivity hl b (hstays h₀' rfl), h]
    simp [hs]

end Process

/-- Where no tool makes a client go away, it is an external listener. -/
theorem Process.watch_external {p : Process α} (hp : .step .dismiss ∉ p.actions) (c : Client) :
    p.watch c.listener [] = p.watch c.external [] := by
  refine watch_congr fun h hpart => ?_
  have hg : c.gone (.ofHistory h) = c.gone (.ofHistory (Action.shown h)) := by
    rw [c.gone_ofHistory fun hm => hp (hpart.subset hm),
      c.gone_ofHistory (fun hm => by simpa [Action.isShown] using List.of_mem_filter hm),
      Action.events_shown]
  have he : (Trace.ofHistory h).events = (Trace.ofHistory (Action.shown h)).events :=
    (Action.events_shown h).symm
  constructor
  · change c.takes _ = c.takes _
    rw [Client.takes, Client.takes, hg, he]
  · change c.heard _ = c.heard _
    rw [Client.heard, Client.heard, hg]

/-! ## Runs -/

/-- Notes something down, and then fails because of it. -/
def Tool.troubled (line : String) : Tool where
  definition := { name := "trouble", description := "", parameters := .none }
  run _ := ⟨[.note line], some (.internalError line none)⟩

/-- It asks for that tool, and then it is done. -/
def Backend.troubled : Backend :=
  .scripted [.chunks [.calls [.ofFunction "trouble" .empty]]] (some (.chunks [.content "Done."]))

theorem Executor.useTools_indistinct {r r' : Registry} (h : r.Matches Tool.Alike r') (d : Dispatch)
    {l : Listener} (hl : l.External) (calls : List ToolCall) :
    (Agent.useTools (ofRegistry r d) calls).Indistinct l
      (Agent.useTools (ofRegistry r' d) calls) := by
  have hresult : ((ofRegistry r d).executeAll calls).result =
      ((ofRegistry r' d).executeAll calls).result := by
    -- in both modes the results of a batch are those of its calls, one by one
    rw [result_executeAll, result_executeAll]
    exact congrFun (congrArg _ (funext h.result_execute)) calls
  have hbatch := (Process.Indistinct.ofActivity hl hresult).bind
    (k := fun results => (Process.emitAll (results.map Event.ofResult)).bind fun _ => .done results)
    fun _ => .refl hl _
  exact .bind (.refl hl _) fun _ => hbatch

namespace Agent

theorem run_indistinct (config : AgentConfig) (backend : Backend) {r r' : Registry}
    (h : r.Matches Tool.Alike r') {l : Listener} (hl : l.External) (request : ChatRequest) :
    ((ofRegistry config backend r).run request).Indistinct l
      ((ofRegistry config backend r').run request) :=
  run_congruence (R := fun _ p q => p.Indistinct l q) (a := ofRegistry config backend r)
    (b := ofRegistry config backend r') (Process.Indistinct.congruence hl) rfl rfl rfl h.offers_eq
    (fun _ => Executor.useTools_indistinct h config.dispatch hl) request

theorem follow_indistinct (config : AgentConfig) (backend : Backend) {r r' : Registry}
    (h : r.Matches Tool.Alike r') (hd : r.Discreet) (hd' : r'.Discreet) (request : ChatRequest)
    (c : Client) :
    let run (r : Registry) := (ofRegistry config backend r).run request
    ((run r).follow c .empty).1.events = ((run r').follow c .empty).1.events ∧
      ((run r).follow c .empty).1.requests = ((run r').follow c .empty).1.requests ∧
      ((run r).follow c .empty).2 = ((run r').follow c .empty).2 := by
  intro run
  obtain ⟨hshown, hending⟩ :=
    run_indistinct config backend h c.external_external request [] [] rfl
  rw [← Trace.ofHistory_nil, Process.follow_eq_watch, Process.follow_eq_watch,
    Process.watch_external (dismiss_not_mem_run hd _ _ _),
    Process.watch_external (dismiss_not_mem_run hd' _ _ _)]
  refine ⟨?_, ?_, hending⟩
  · rw [Trace.events_ofHistory, Trace.events_ofHistory, ← Action.events_shown, hshown,
      Action.events_shown]
  · rw [Trace.requests_ofHistory, Trace.requests_ofHistory, ← Action.requests_shown, hshown,
      Action.requests_shown]

theorem ofRegistry_eq (config : AgentConfig) (backend : Backend) {r r' : Registry}
    (h : r.Matches Tool.AlikeInSteps r') :
    ofRegistry config backend r = ofRegistry config backend r' := by
  simp only [ofRegistry, Executor.ofRegistry, h.execute_eq,
    (h.mono fun _ _ ht => ht.toAlike).offers_eq]

theorem ofBuiltins_eq (config : AgentConfig) (backend : Backend) (c : Tool.BuiltinConfig)
    (programs : String → String → ProgramRun)
    {network network' : Nat → ToolCall → Http.Call → Http.Contact}
    (h : ∀ turn call q, Service.AlikeContacts (network turn call q) (network' turn call q)) :
    ofBuiltins config backend c network programs =
      ofBuiltins config backend c network' programs := by
  have hask turn call : c.service.ask (network turn call) = c.service.ask (network' turn call) :=
    funext fun _ => Service.judge_alike (h ..) _
  simp only [ofBuiltins, Executor.ofBuiltins, Tool.builtins, hask]

/-- Tools that differ in the details of internal errors make runs that cannot be told apart from
outside: the client is told the same, the backend is asked the same in between, and the runs end
alike. If the tools also do the same, the runs are the same, whoever listens. So are the runs with
the two tools when only the texts differ that say why an answer of the service cannot be read, or,
for each call of each turn, the responses themselves that hold none. -/
theorem run_of_alike (config : AgentConfig) (backend : Backend) (request : ChatRequest) :
    let run (r : Registry) := (ofRegistry config backend r).run request
    (∀ r r' : Registry, r.Matches Tool.Alike r' →
      (∀ l : Listener, l.External →
        Action.shown ((run r).watch l []).1 = Action.shown ((run r').watch l []).1 ∧
          ((run r).watch l []).2 = ((run r').watch l []).2) ∧
      (r.Discreet → r'.Discreet → ∀ c : Client,
        ((run r).follow c .empty).1.events = ((run r').follow c .empty).1.events ∧
          ((run r).follow c .empty).1.requests = ((run r').follow c .empty).1.requests ∧
          ((run r).follow c .empty).2 = ((run r').follow c .empty).2)) ∧
    (∀ r r' : Registry, r.Matches Tool.AlikeInSteps r' → run r = run r') ∧
    (∀ (send send' : Tool.Delegate) (i : Option Interpreter),
      (∀ d, Delegation.AlikeAnswers (send d) (send' d)) →
      run (.ofList [.calculate send, .python send i]) =
        run (.ofList [.calculate send', .python send' i])) ∧
    ∀ (c : Tool.BuiltinConfig) (programs : String → String → ProgramRun)
      (network network' : Nat → ToolCall → Http.Call → Http.Contact),
      (∀ turn call q, Service.AlikeContacts (network turn call q) (network' turn call q)) →
      (ofBuiltins config backend c network programs).run request =
        (ofBuiltins config backend c network' programs).run request := by
  intro run
  have hsame (r r' : Registry) (h : r.Matches Tool.AlikeInSteps r') : run r = run r' :=
    congrArg (Agent.run · request) (ofRegistry_eq config backend h)
  refine ⟨fun r r' h => ⟨fun l hl => ?_, fun hd hd' c => ?_⟩, hsame, fun send send' i h => ?_,
    fun c programs network network' h => ?_⟩
  · exact run_indistinct config backend h hl request [] [] rfl
  · exact follow_indistinct config backend h hd hd' request c
  · exact hsame _ _ (Registry.builtins_alike h i)
  · exact congrArg (Agent.run · request) (ofBuiltins_eq config backend c programs h)

/-- Where the tools note different things down, only the tools' own marks tell of it. -/
theorem run_of_alike_troubled :
    let run line := (ofRegistry ⟨"Be brief.", 2, .sequential⟩ .troubled
      (.ofList [.troubled line])).run .hello
    let history line := ((run line).watch Client.patient.external []).1
    Action.shown (history "disk full") = Action.shown (history "out of memory") ∧
      history "disk full" ≠ history "out of memory" := by
  have halike : Registry.Matches Tool.Alike (.ofList [.troubled "disk full"])
      (.ofList [.troubled "out of memory"]) :=
    .cons ⟨rfl, rfl, fun _ => .some (.internal ..)⟩ .nil
  have hruns := (run_of_alike ⟨"Be brief.", 2, .sequential⟩ .troubled .hello).1 _ _ halike
  exact ⟨(hruns.1 _ Client.patient.external_external).1, by decide +kernel⟩

end Agent

end ChatAgent
