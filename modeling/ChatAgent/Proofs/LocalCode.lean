import ChatAgent.Proofs.Origin
import ChatAgent.Proofs.Settings

/-!
# Code that is run locally

The settings have to allow it, the model has to ask for it, and the request by which the service was
to run it has to fail before there is a response: otherwise no code is given to the local
interpreter, whatever the model asks for and whatever becomes of each request
(`Agent.interpret_of_run`).
-/

namespace ChatAgent

/-! ## Settings -/

namespace Settings

/-- Code is run locally only where a variable says so. -/
theorem allowsLocalCode_of_environment {env : Environment} {s : Settings}
    (h : ofEnvironment env = .ok s) (ha : s.tools.allowsLocalCode = true) :
    ∃ raw, env "ALLOW_INSECURE_CODE_FALLBACK" = some raw ∧
      Text.lowercase (Text.trim raw) ∈ ["true", "1"] := by
  rcases (ofEnvironment_ok.mp h).allowsLocalCode with ⟨raw, hraw, hyes⟩ | ⟨-, hno⟩
  · exact ⟨raw, hraw.1, hyes.mp ha⟩
  · rw [ha] at hno
    cases hno

end Settings

/-! ## The service -/

/-- A service counts as unreachable only when the request has failed before there was a response:
neither silence nor any response says so. -/
theorem Service.judge_of_unreachable {s : Service} {contact : Http.Contact} {reason : String}
    (h : s.judge contact = .error (.unreachable reason)) : contact = .failed reason := by
  cases contact with
  | failed r =>
      cases h
      rfl
  | silence => cases h
  | response r =>
      simp only [judge, judgeResponse] at h
      split at h
      · cases h
      · cases h
      · split at h
        · rename_i answer _
          simp only [ServiceAnswer.toResult] at h
          split at h <;> cases h
        · cases h

/-! ## Tools -/

namespace Tool

variable {send : Delegate} {own rest : List Step} {code : String}

/-- What is done instead of a call comes after the call has been handed over in vain. -/
theorem split_delegating {call : Delegation} {instead : Activity Outcome}
    (h : (delegating send call instead).steps = own ++ .interpret code :: rest) :
    (∃ reason, send call = .error (.unreachable reason)) ∧ .delegate call ∈ own ∧
      .interpret code ∈ instead.steps := by
  -- whatever comes of the call, the first steps are to hand it over and to wait
  have hdelegate (ss : List Step)
      (he : .delegate call :: .pause :: ss = own ++ .interpret code :: rest) :
      .delegate call ∈ own ∧ .interpret code ∈ ss := by
    rcases own with _ | ⟨x, _ | ⟨y, own⟩⟩
    · cases he
    · cases he
    · simp only [List.cons_append, List.cons.injEq] at he
      obtain ⟨rfl, rfl, rfl⟩ := he
      simp
  simp only [delegating] at h
  split at h
  · simpa using hdelegate _ h
  · rename_i reason hsend
    exact ⟨⟨reason, hsend⟩, hdelegate _ h⟩
  · simpa using hdelegate _ h
  · simpa using hdelegate _ h

theorem split_withString {key : String} {arguments : Json} {use : String → Activity Outcome}
    {s : Step} (h : (withString key arguments use).steps = own ++ s :: rest) :
    ∃ text, (arguments.field? key).bind Json.string? = some text ∧
      (use text).steps = own ++ s :: rest := by
  simp only [withString] at h
  split at h
  · rename_i text ht
    exact ⟨text, ht, h⟩
  · simp [Activity.finished] at h

theorem interpret_mem_runHere {i : Option Interpreter} {text : String}
    (h : .interpret code ∈ (runHere i text).steps) : i.isSome ∧ code = text := by
  cases i with
  | none => cases h
  | some i => simpa [runHere] using h

theorem allowsLocalCode_of_interpreter? {c : BuiltinConfig}
    {programs : String → String → ProgramRun} (h : (c.interpreter? programs).isSome) :
    c.allowsLocalCode = true := by
  simp only [BuiltinConfig.interpreter?] at h
  split at h
  · assumption
  · cases h

/-- Where the two tools have code run locally, it is the string that `python` has been given, it is
allowed, and the request to the service was made first and has failed. -/
theorem split_builtins {c : BuiltinConfig} {network : Http.Call → Http.Contact}
    {programs : String → String → ProgramRun} {t : Tool} (ht : t ∈ builtins c network programs)
    {arguments : Json} (h : (t.run arguments).steps = own ++ .interpret code :: rest) :
    t.name = "python" ∧ (arguments.field? "code").bind Json.string? = some code ∧
      c.allowsLocalCode = true ∧ .delegate (delegation "python" "code" code) ∈ own ∧
      ∃ reason, network (c.service.call (delegation "python" "code" code)) = .failed reason := by
  rcases List.mem_pair.mp ht with rfl | rfl
  · obtain ⟨expression, -, hrun⟩ := split_withString h
    obtain ⟨-, -, hinterpret⟩ := split_delegating hrun
    cases hinterpret
  · obtain ⟨text, htext, hrun⟩ := split_withString h
    obtain ⟨⟨reason, hunreachable⟩, hdelegate, hinterpret⟩ := split_delegating hrun
    obtain ⟨hsome, rfl⟩ := interpret_mem_runHere hinterpret
    exact ⟨rfl, htext, allowsLocalCode_of_interpreter? hsome, hdelegate, reason,
      Service.judge_of_unreachable hunreachable⟩

end Tool

/-- Registered together, the two tools are in the order of their names. -/
theorem Registry.ofList_builtins (send : Tool.Delegate) (i : Option Interpreter) :
    ofList [.calculate send, .python send i] =
      ⟨[("calculate", .calculate send), ("python", .python send i)]⟩ := by
  have hlt : ¬"python" < "calculate" := by decide +kernel
  have hcalculate : (Tool.calculate send).name = "calculate" := rfl
  have hpython : (Tool.python send i).name = "python" := rfl
  simp [ofList, register, empty, Json.insertField, hcalculate, hpython, hlt]

/-- Their descriptions say nothing of the service and of an interpreter. -/
theorem Registry.list_builtins (send send' : Tool.Delegate) (i i' : Option Interpreter) :
    (ofList [.calculate send, .python send i]).list =
      (ofList [.calculate send', .python send' i']).list := by
  rw [ofList_builtins, ofList_builtins]
  simp only [list, List.map_cons, List.map_nil]
  simp only [Tool.calculate, Tool.python]

/-! ## Runs -/

/-- It asks for the same program in every turn. -/
def Backend.programming : Backend :=
  .scripted [] (some (.chunks
    [.calls [.ofFunction "python" (.object [("code", .string "print(1)")])]]))

/-- Executes the calls of a turn with the two tools; `network` says what becomes of the requests of
each call. -/
def Executor.ofBuiltins (c : Tool.BuiltinConfig) (network : ToolCall → Http.Call → Http.Contact)
    (programs : String → String → ProgramRun) (d : Dispatch) : Executor where
  execute call := (Registry.ofList (Tool.builtins c (network call) programs)).execute call
  dispatch := d

namespace Agent

/-- An agent with the two tools. What becomes of a request may depend on the turn and on the call,
and no two calls of a turn are the same. What is offered does not depend on it. -/
def ofBuiltins (config : AgentConfig) (backend : Backend) (c : Tool.BuiltinConfig)
    (network : Nat → ToolCall → Http.Call → Http.Contact)
    (programs : String → String → ProgramRun) : Agent where
  config := config
  backend := backend
  offers := (Registry.ofList (Tool.builtins c (fun _ => .silence) programs)).offers
  executor turn := .ofBuiltins c (network turn) programs config.dispatch

/-- Where all calls are treated alike, it is an agent with a registry of the two tools. -/
theorem ofBuiltins_const (config : AgentConfig) (backend : Backend) (c : Tool.BuiltinConfig)
    (network : Http.Call → Http.Contact) (programs : String → String → ProgramRun) :
    ofBuiltins config backend c (fun _ _ => network) programs =
      ofRegistry config backend (.ofList (Tool.builtins c network programs)) := by
  have hoffers : (Registry.ofList (Tool.builtins c (fun _ => .silence) programs)).offers =
      (Registry.ofList (Tool.builtins c network programs)).offers := by
    simp only [Registry.offers]
    exact congrArg _ (Registry.list_builtins ..)
  simp only [ofBuiltins, ofRegistry, hoffers, Executor.ofBuiltins, Executor.ofRegistry]

section

variable {c : Tool.BuiltinConfig} {network : ToolCall → Http.Call → Http.Contact}
  {programs : String → String → ProgramRun} {d : Dispatch} {sofar : List Action} {code : String}

/-- Whose code it is that is run locally, and what has been done before. -/
theorem owns_interpret
    (h : (Executor.ofBuiltins c network programs d).Owns sofar (.interpret code)) :
    c.allowsLocalCode = true ∧ ∃ call : ToolCall, .emit (.ofCall call) ∈ sofar ∧
      call.name = "python" ∧ (call.arguments.field? "code").bind Json.string? = some code ∧
      .step (.delegate (Tool.delegation "python" "code" code)) ∈ sofar ∧
      ∃ reason, network call (c.service.call (Tool.delegation "python" "code" code)) =
        .failed reason := by
  obtain ⟨call, own, rest, hannounced, hsteps, hown⟩ := h
  obtain ⟨t, ht, before, after, hrun, hbefore⟩ := Registry.split_execute rfl hsteps
  obtain ⟨hmem, hname⟩ := Registry.of_get?_ofList ht
  obtain ⟨hpython, hcode, hallowed, hdelegate, hfailed⟩ := Tool.split_builtins hmem hrun
  exact ⟨hallowed, call, hannounced, hname.symm.trans hpython, hcode,
    hown _ (hbefore _ hdelegate rfl) nofun, hfailed⟩

end

/-- No code is run locally unless a variable allows it. Where it is, a call of `python` has been
announced in the same turn that holds it as a string, and the request by which the service was to
run it has failed before there was a response. This is so whatever the model asks for, whatever
becomes of the request of each call in each turn, and whoever listens. -/
theorem interpret_of_run {env : Environment} {s : Settings}
    (hs : Settings.ofEnvironment env = .ok s) (config : AgentConfig) (backend : Backend)
    (network : Nat → ToolCall → Http.Call → Http.Contact)
    (programs : String → String → ProgramRun) (request : ChatRequest) (l : Listener) :
    let history :=
      (((ofBuiltins config backend s.tools network programs).run request).watch l []).1
    ((∀ raw, env "ALLOW_INSECURE_CODE_FALLBACK" = some raw →
        Text.lowercase (Text.trim raw) ∉ ["true", "1"]) →
      ∀ code, .step (.interpret code) ∉ history) ∧
    ∀ sofar code later, history = sofar ++ .step (.interpret code) :: later →
      ∃ before q during, sofar = before ++ .ask q :: during ∧ Action.requests during = [] ∧
        let contact (call : ToolCall) := network (Action.requests before).length call
        let handed := Tool.delegation "python" "code" code
        ∃ call : ToolCall, .emit (.ofCall call) ∈ during ∧ call.name = "python" ∧
          (call.arguments.field? "code").bind Json.string? = some code ∧
          .step (.delegate handed) ∈ during ∧
          ∃ reason, contact call (s.tools.service.call handed) = .failed reason ∧
            s.tools.service.ask (contact call) handed = .error (.unreachable reason) := by
  intro history
  have howned {sofar : List Action} {code : String} {later : List Action}
      (h : history = sofar ++ .step (.interpret code) :: later) :=
    owns_of_run _ request l h
  refine ⟨fun hno code hmem => ?_, fun sofar code later h => ?_⟩
  · obtain ⟨sofar, later, h⟩ := List.append_of_mem hmem
    obtain ⟨_, _, _, -, -, howns⟩ := howned h
    obtain ⟨raw, hraw, hyes⟩ := Settings.allowsLocalCode_of_environment hs (owns_interpret howns).1
    exact hno raw hraw hyes
  · obtain ⟨before, q, during, hsofar, hnone, howns⟩ := howned h
    rw [Nat.zero_add] at howns
    obtain ⟨-, call, hannounced, hname, hcode, hdelegate, reason, hfailed⟩ := owns_interpret howns
    exact ⟨before, q, during, hsofar, hnone, call, hannounced, hname, hcode, hdelegate, reason,
      hfailed, congrArg s.tools.service.judge hfailed⟩

/-- Saying yes in a way that is not understood allows nothing. Where it is understood, and the
service cannot be reached in the first turn only, the code is run there and not in the second. -/
theorem interpret_of_run_programming :
    let env answer : Environment := ([("ALLOW_INSECURE_CODE_FALLBACK", answer)].lookup ·)
    let settings allowed : Settings := { Settings.default with tools.allowsLocalCode := allowed }
    let network (turn : Nat) (_ : ToolCall) (call : Http.Call) : Http.Contact :=
      (call.place (if turn = 0 then .refuses else .silent)).1
    let history (s : Settings) :=
      (((ofBuiltins ⟨"Be brief.", 2, .sequential⟩ .programming s.tools network
        fun _ _ => .endless).run .hello).watch Client.patient.listener []).1
    (Settings.ofEnvironment (env "yes") = .ok (settings false) ∧
      ∀ code, .step (.interpret code) ∉ history (settings false)) ∧
    Settings.ofEnvironment (env " True ") = .ok (settings true) ∧
      (history (settings true)).count (.step (.interpret "print(1)")) = 1 ∧
      ∃ call : ToolCall, .emit (.ofCall call) ∈ history (settings true) ∧ call.name = "python" ∧
        (call.arguments.field? "code").bind Json.string? = some "print(1)" ∧
        .step (.delegate (Tool.delegation "python" "code" "print(1)")) ∈
          history (settings true) := by
  intro env settings network history
  have hno : Settings.ofEnvironment (env "yes") = .ok (settings false) := by decide +kernel
  have hyes : Settings.ofEnvironment (env " True ") = .ok (settings true) := by decide +kernel
  have honce : (history (settings true)).count (.step (.interpret "print(1)")) = 1 := by
    decide +kernel
  have hmem : .step (.interpret "print(1)") ∈ history (settings true) :=
    List.count_pos_iff.mp (by rw [honce]; exact Nat.one_pos)
  refine ⟨⟨hno, (interpret_of_run hno _ _ _ _ _ _).1 fun raw hraw => ?_⟩, hyes, honce, ?_⟩
  · cases hraw
    decide +kernel
  · obtain ⟨sofar, later, h⟩ := List.append_of_mem hmem
    obtain ⟨before, q, during, rfl, -, call, hannounced, hname, hcode, hdelegate, -⟩ :=
      (interpret_of_run hyes _ _ _ _ _ _).2 _ _ _ h
    rw [h]
    exact ⟨call, by simp [hannounced], hname, hcode, by simp [hdelegate]⟩

end Agent

end ChatAgent
