import ChatAgent.Proofs.LocalCode
import ChatAgent.Proofs.Records
import ChatAgent.Proofs.Trimming

/-!
# Calls that are handed over

The two tools hand over each call that they understand, once, and all that is heard of it falls into
the same few cases for both. What they do instead is done only when the request has failed before
there was a response, and an answer of the service always stands, whatever its status
(`Tool.handed_over`). Whoever takes a request and hangs up on it makes it fail, and so does a
redirect that cannot be followed; redirects are left to the network here.
-/

namespace ChatAgent

/-! ## Answers of the service -/

namespace ServiceAnswer

open Json (Document)
open Json.Document (under)

/-- A text that is given at most once, and empty where it is not. -/
inductive SaysText : List Document → String → Prop
  | missing : SaysText [] ""
  | given {text : String} : SaysText [.string (some text)] text

/-- A document says whether the call succeeded, and may say with which result or error: in an
object with other fields, or in an array. -/
inductive Says : Document → ServiceAnswer → Prop
  | object {given : List (Option String × Document)} {success : Bool} {result error : String}
      (hnames : ∀ f ∈ given, f.1 ≠ none) (hsuccess : under "success" given = [.bool success])
      (hresult : SaysText (under "result" given) result)
      (herror : SaysText (under "error" given) error) :
      Says (.object given) ⟨success, result, error⟩
  | one {success : Bool} : Says (.array [.bool success]) ⟨success, "", ""⟩
  | two {success : Bool} {result : String} :
      Says (.array [.bool success, .string (some result)]) ⟨success, result, ""⟩
  | three {success : Bool} {result error : String} :
      Says (.array [.bool success, .string (some result), .string (some error)])
        ⟨success, result, error⟩

theorem required_bool {g : Json.Given} {name : String} {b : Bool} :
    g.required name .bool = some b ↔ g.values.lookup name = some (.bool b) := by
  rw [Json.Given.required]
  cases g.values.lookup name with
  | none => simp
  | some d => cases d <;> simp [Json.Reader.bool]

theorem orElse_string {g : Json.Given} {name s : String} :
    g.orElse name .string "" = some s ↔ SaysText (g.values.lookup name).toList s := by
  rw [Json.Given.orElse]
  cases g.values.lookup name with
  | none =>
      constructor
      · intro h
        cases h
        exact .missing
      · intro h
        cases h
        rfl
  | some d =>
      constructor
      · intro h
        cases d with
        | string text =>
            cases h
            exact .given
        | _ => cases h
      · intro h
        cases h
        rfl

/-- The names of the fields. -/
def names : List String := ["success", "result", "error"]

theorem read_eq_some {n : Nat} {d : Document} {success : Bool} {result error : String} :
    read n d = some ⟨success, result, error⟩ ↔ ∃ g, Json.Given.read names n d = some g ∧
      g.values.lookup "success" = some (.bool success) ∧
      SaysText (g.values.lookup "result").toList result ∧
      SaysText (g.values.lookup "error").toList error := by
  simp only [read, Option.bind_eq_bind, Option.bind_eq_some_iff, required_bool, orElse_string]
  constructor
  · rintro ⟨g, hg, success, hsuccess, result, hresult, error, herror, h⟩
    cases h
    exact ⟨g, hg, hsuccess, hresult, herror⟩
  · rintro ⟨g, hg, hsuccess, hresult, herror⟩
    exact ⟨g, hg, success, hsuccess, result, hresult, error, herror, rfl⟩

theorem SaysText.length_le {ds : List Document} {text : String} (h : SaysText ds text) :
    ds.length ≤ 1 := by
  cases h with
  | missing => exact Nat.zero_le 1
  | given => exact Nat.le_refl 1

theorem read_object {n : Nat} {given : List (Option String × Document)} {a : ServiceAnswer} :
    read (n + 1) (.object given) = some a ↔ Says (.object given) a := by
  rw [read_eq_some]
  constructor
  · rintro ⟨g, hg, hsuccess, hresult, herror⟩
    obtain ⟨values, hvalues, rfl⟩ := Option.map_eq_some_iff.mp hg
    obtain ⟨hsome, hunder⟩ := Json.Given.under_of_named hvalues
    refine .object hsome ?_ ?_ ?_
    · rw [hunder "success" (by decide), hsuccess, Option.toList_some]
    · rwa [hunder "result" (by decide)]
    · rwa [hunder "error" (by decide)]
  · intro h
    obtain ⟨hsome, hsuccess, hresult, herror⟩ := h
    have hone : ∀ name ∈ names, (under name given).length ≤ 1 := by
      simp only [names, List.forall_mem_cons]
      exact ⟨by rw [hsuccess]; exact Nat.le_refl 1, hresult.length_le, herror.length_le, nofun⟩
    obtain ⟨values, hvalues⟩ := Json.Given.exists_named hsome hone
    obtain ⟨-, hunder⟩ := Json.Given.under_of_named hvalues
    rw [hunder _ (by decide)] at hsuccess hresult herror
    exact ⟨⟨n, values⟩, by rw [Json.Given.read, hvalues]; rfl,
      Option.toList_eq_singleton_iff.mp hsuccess, hresult, herror⟩

theorem read_array {n : Nat} {ds : List Document} {a : ServiceAnswer} :
    read (n + 1) (.array ds) = some a ↔ Says (.array ds) a := by
  obtain ⟨success, result, error⟩ := a
  rw [read_eq_some]
  constructor
  · rintro ⟨g, hg, hsuccess, hresult, herror⟩
    rw [Json.Given.read] at hg
    split at hg
    · rename_i hlength
      cases hg
      rcases ds with _ | ⟨d, _ | ⟨r, _ | ⟨e, _ | ⟨x, ds⟩⟩⟩⟩
      · cases hsuccess
      · cases hsuccess
        cases hresult
        cases herror
        exact .one
      · cases hsuccess
        cases hresult
        cases herror
        exact .two
      · cases hsuccess
        cases hresult
        cases herror
        exact .three
      · have hfour : ds.length + 4 ≤ 3 := hlength
        omega
    · cases hg
  · intro h
    cases h with
    | one => exact ⟨_, rfl, rfl, .missing, .missing⟩
    | two => exact ⟨_, rfl, rfl, .given, .missing⟩
    | three => exact ⟨_, rfl, rfl, .given, .given⟩

theorem read_iff {n : Nat} {d : Document} {a : ServiceAnswer} :
    read (n + 1) d = some a ↔ Says d a := by
  cases d with
  | object given => exact read_object
  | array ds => exact read_array
  | _ => exact ⟨nofun, nofun⟩

end ServiceAnswer

/-! ## What is heard of a call -/

/-- A body answers a call when it is a JSON text that says so. -/
def Answers (body : List UInt8) (a : ServiceAnswer) : Prop :=
  ∃ d, Json.Document.ofBytes? body = some d ∧ ServiceAnswer.Says d a

theorem readBytes?_eq_some {body : List UInt8} {a : ServiceAnswer} :
    Json.readBytes? ServiceAnswer.read body = some a ↔ Answers body a := by
  simp only [Json.readBytes?, Option.bind_eq_some_iff, Json.Reader.maxLevels,
    ServiceAnswer.read_iff, Answers]

/-- What comes of a call that has been handed over, where `Instead` says what may come of it when
the request has failed before there was a response. The status of a response says nothing. -/
inductive Settles (limit : Duration) (Instead : Outcome → Prop) : Http.Contact → Outcome → Prop
  | unreachable {reason : String} {o : Outcome} (h : Instead o) :
      Settles limit Instead (.failed reason) o
  | silent : Settles limit Instead .silence
      (.toolError ("execution service timed out after " ++ limit.text))
  | stalled {r : Http.Response} (h : r.ending = .stalled) : Settles limit Instead (.response r)
      (.toolError ("execution service timed out after " ++ limit.text))
  | broken {r : Http.Response} (h : r.ending = .broken) : Settles limit Instead (.response r)
      (.internalError "error decoding response body" none)
  | unreadable {r : Http.Response} (h : r.ending = .whole) (hbody : ∀ a, ¬ Answers r.body a) :
      Settles limit Instead (.response r) (.internalError "error decoding response body" none)
  | success {r : Http.Response} {result error : String} (h : r.ending = .whole)
      (hbody : Answers r.body ⟨true, result, error⟩) :
      Settles limit Instead (.response r) (.success result)
  | failure {r : Http.Response} {result error : String} (h : r.ending = .whole)
      (hbody : Answers r.body ⟨false, result, error⟩) :
      Settles limit Instead (.response r) (.toolError error)

/-- The requests that an activity makes of a service. -/
def Activity.calls (s : Service) (a : Activity α) : List Http.Call :=
  a.steps.filterMap fun
    | .delegate d => some (s.call d)
    | _ => none

namespace Tool

variable {s : Service} {network : Http.Call → Http.Contact} {call : Delegation}
  {instead : Activity Outcome}

theorem calls_delegating (h : instead.calls s = []) :
    (delegating (s.ask network) call instead).calls s = [s.call call] := by
  rw [delegating]
  cases s.ask network call with
  | ok result => rfl
  | error fault =>
      cases fault with
      | unreachable reason =>
          rw [Activity.calls] at h ⊢
          simp [h]
      | timedOut | invalidResponse | failed => rfl

theorem settles_delegating {Instead : Outcome → Prop} {o : Outcome}
    (ho : instead.result = some o) (h : Instead o) :
    ∃ o, (delegating (s.ask network) call instead).result = some o ∧
      Settles s.limit Instead (network (s.call call)) o := by
  rw [delegating, Service.ask]
  cases network (s.call call) with
  | failed reason => exact ⟨o, ho, .unreachable h⟩
  | silence => exact ⟨_, rfl, .silent⟩
  | response r =>
      rw [Service.judge, Service.judgeResponse]
      cases hending : r.ending with
      | stalled => exact ⟨_, rfl, .stalled hending⟩
      | broken => exact ⟨_, rfl, .broken hending⟩
      | whole =>
          cases hbody : Json.readBytes? ServiceAnswer.read r.body with
          | none =>
              refine ⟨_, rfl, .unreadable hending fun a ha => ?_⟩
              rw [readBytes?_eq_some.mpr ha] at hbody
              cases hbody
          | some a =>
              obtain ⟨success, result, error⟩ := a
              have hanswers := readBytes?_eq_some.mp hbody
              cases success with
              | true => exact ⟨_, rfl, .success hending hanswers⟩
              | false => exact ⟨_, rfl, .failure hending hanswers⟩

/-- Arguments are an object that holds a string under a key. -/
def Holds (arguments : Json) (key value : String) : Prop :=
  ∃ fields, arguments = .object fields ∧ fields.lookup key = some (.string value)

theorem field?_string {arguments : Json} {key value : String} :
    (arguments.field? key).bind Json.string? = some value ↔ Holds arguments key value := by
  have hstring (j : Json) : j.string? = some value ↔ j = .string value := by
    cases j <;> simp [Json.string?]
  cases arguments with
  | object fields => simp [Holds, Json.field?, Option.bind_eq_some_iff, hstring]
  | _ => simp [Holds, Json.field?]

/-- What a tool does that hands over the string which its arguments hold under a key: one request,
what is heard of it, and no code run here unless the request has failed before there was a response.
Without the string it does nothing. -/
structure HandsOver (s : Service) (address : String) (network : Http.Call → Http.Contact)
    (tool key : String) (Instead : String → Outcome → Prop) (arguments : Json)
    (a : Activity Outcome) : Prop where
  asks : ∀ value, Holds arguments key value →
    let body : Json := .object [("tool", .string tool), ("args", .object [(key, .string value)])]
    let call : Http.Call :=
      ⟨"POST", address, [("content-type", "application/json")], Text.bytes body.text⟩
    a.calls s = [call] ∧
      (∃ o, a.result = some o ∧ Settles s.limit (Instead value) (network call) o) ∧
      ∀ code, .interpret code ∈ a.steps → ∃ reason, network call = .failed reason
  refuses : (∀ value, ¬ Holds arguments key value) →
    a = .finished (.toolError (key ++ " must be a string"))

theorem handsOver_withString {tool key : String} {Instead : String → Outcome → Prop}
    {instead : String → Activity Outcome} (arguments : Json)
    (hcalls : ∀ value, (instead value).calls s = [])
    (hinstead : ∀ value, ∃ o, (instead value).result = some o ∧ Instead value o) :
    HandsOver s s.endpoint network tool key Instead arguments
      (withString key arguments fun value =>
        delegating (s.ask network) (delegation tool key value) (instead value)) := by
  constructor
  · intro value hvalue body call
    rw [withString, field?_string.mpr hvalue]
    obtain ⟨o, ho, hmeans⟩ := hinstead value
    refine ⟨calls_delegating (hcalls value), settles_delegating ho hmeans, fun code hcode => ?_⟩
    obtain ⟨own, rest, hsteps⟩ := List.append_of_mem hcode
    obtain ⟨⟨reason, hunreachable⟩, -⟩ := split_delegating hsteps
    exact ⟨reason, Service.judge_of_unreachable hunreachable⟩
  · intro hnone
    have hstring : (arguments.field? key).bind Json.string? = none :=
      Option.eq_none_iff_forall_ne_some.mpr fun value h => hnone value (field?_string.mp h)
    rw [withString, hstring]

/-- What an expression comes to. -/
def Evaluates (expression : String) (o : Outcome) : Prop :=
  match Calculator.evaluate expression with
  | .ok n => o = .success (Calculator.display n)
  | .error e => o = .toolError ("execution error: " ++ e.message)

theorem evaluates_evaluateHere (expression : String) :
    Evaluates expression (evaluateHere expression) := by
  rw [Evaluates, evaluateHere]
  cases Calculator.evaluate expression <;> rfl

/-- What comes of code, with a local interpreter or without one. -/
def Runs (interpreter : Option Interpreter) (code : String) (o : Outcome) : Prop :=
  match interpreter with
  | some i => o = i.outcome code
  | none => o = .toolError "execution service unreachable and local code execution is disabled"

theorem runs_runHere (interpreter : Option Interpreter) (code : String) :
    ∃ o, (runHere interpreter code).result = some o ∧ Runs interpreter code o := by
  cases interpreter with
  | some i => exact ⟨_, rfl, rfl⟩
  | none => exact ⟨_, rfl, rfl⟩

theorem calls_runHere (interpreter : Option Interpreter) (code : String) :
    (runHere interpreter code).calls s = [] := by
  cases interpreter <;> rfl

end Tool

/-- Both tools, at every base address, whatever they are given and whatever becomes of requests. -/
theorem Tool.handed_over (base : String) (limit : Duration)
    (network : Http.Call → Http.Contact) (interpreter : Option Interpreter) (arguments : Json) :
    let s := Service.ofUrl base limit
    let stem := Text.trimSlashes base
    (∃ n, base = stem ++ String.ofList (List.replicate n '/')) ∧
      stem.toList.getLast? ≠ some '/' ∧
      HandsOver s (stem ++ "/execute") network "calculate" "expression" Evaluates arguments
        ((calculate (s.ask network)).run arguments) ∧
      HandsOver s (stem ++ "/execute") network "python" "code" (Runs interpreter) arguments
        ((python (s.ask network) interpreter).run arguments) ∧
      ∀ peer, s.execute peer = s.ask fun call => (call.place peer).1 := by
  intro s stem
  obtain ⟨hbase, hlast⟩ := Text.trimSlashes_spec base
  refine ⟨hbase, hlast, ?_, ?_, fun _ => rfl⟩
  · exact handsOver_withString arguments (fun _ => rfl)
      fun expression => ⟨_, rfl, evaluates_evaluateHere expression⟩
  · exact handsOver_withString arguments (calls_runHere interpreter) (runs_runHere interpreter)

/-- An answer with the status of an error, at an address with two slashes. -/
theorem Tool.handed_over_despite_status :
    let s := Service.ofUrl "http://svc//" (.ofSeconds 30)
    let answer : Json := .object [("success", .bool true), ("result", .string "4")]
    let response : Http.Response := ⟨500, [], Text.bytes answer.text, .whole⟩
    let a := (calculate (s.ask fun _ => .response response)).run
      (.object [("expression", .string "2+2")])
    (a.calls s).map (·.address) = ["http://svc/execute"] ∧ a.result = some (.success "4") := by
  intro s answer response a
  obtain ⟨-, -, hcalculate, -⟩ := handed_over "http://svc//" (.ofSeconds 30)
    (fun _ => .response response) none (.object [("expression", .string "2+2")])
  obtain ⟨hcalls, ⟨o, ho, hsettles⟩, -⟩ := hcalculate.asks "2+2" ⟨_, rfl, rfl⟩
  have hread : Json.readBytes? ServiceAnswer.read response.body = some ⟨true, "4", ""⟩ := by
    decide +kernel
  have hanswer {b : ServiceAnswer} (hb : Answers response.body b) : b = ⟨true, "4", ""⟩ :=
    Option.some.inj ((readBytes?_eq_some.mpr hb).symm.trans hread)
  refine ⟨?_, ?_⟩
  · rw [hcalls]
    decide +kernel
  · cases hsettles with
    | success _ hbody =>
        cases hanswer hbody
        exact ho
    | failure _ hbody => cases hanswer hbody
    | unreadable _ hbody => exact absurd (readBytes?_eq_some.mp hread) (hbody _)
    | stalled h | broken h => cases h

end ChatAgent
