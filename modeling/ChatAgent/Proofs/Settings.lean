import ChatAgent.Proofs.Trimming
import ChatAgent.Server.Startup
import Mathlib.Algebra.Group.Nat.Defs
import Mathlib.Logic.Function.Basic

/-!
# Settings

The server starts with the environments that say something it understands, and with those only; the
settings are then what the variables say, or the defaults where they say nothing. Of several
variables that it does not understand the first is reported (`Settings.understood`).
-/

namespace ChatAgent.Settings

/-! ## What values say -/

/-- ASCII digits say a number, and a plus sign may stand before them. -/
def Says (s : String) (n : Nat) : Prop :=
  ∃ ds, (s.toList = ds ∨ s.toList = '+' :: ds) ∧ ds ≠ [] ∧ (∀ c ∈ ds, c.isDigit) ∧
    Nat.ofDigitChars 10 ds 0 = n

/-- A value that is trimmed says a number in a range. -/
def SaysNumber (low high : Nat) (raw : String) (n : Nat) : Prop :=
  Says (Text.trim raw) n ∧ low ≤ n ∧ n ≤ high

def SaysDispatch (raw : String) (d : Dispatch) : Prop := Text.lowercase (Text.trim raw) = d.name

def SaysYes (raw : String) (yes : Bool) : Prop :=
  yes = true ↔ Text.lowercase (Text.trim raw) ∈ ["true", "1"]

theorem digits_eq_some {ds : List Char} {n : Nat} :
    (if ds.isEmpty || !ds.all Char.isDigit then none
      else some (ds.foldl (fun n c => n * 10 + (c.toNat - '0'.toNat)) 0)) = some n ↔
    ds ≠ [] ∧ (∀ c ∈ ds, c.isDigit) ∧ Nat.ofDigitChars 10 ds 0 = n := by
  simp [Nat.ofDigitChars_eq_foldl, Nat.mul_comm, and_assoc]

theorem readDigits?_eq_some {s : String} {n : Nat} : readDigits? s = some n ↔ Says s n := by
  rw [readDigits?]
  split
  next cs hcs =>
    rw [digits_eq_some, Says, hcs]
    constructor
    · rintro ⟨hne, hdigits, hn⟩
      exact ⟨cs, .inr rfl, hne, hdigits, hn⟩
    · rintro ⟨ds, rfl | hds, hne, hdigits, hn⟩
      · exact absurd (hdigits '+' List.mem_cons_self) (by decide)
      · cases hds
        exact ⟨hne, hdigits, hn⟩
  next hunsigned =>
    rw [digits_eq_some, Says]
    constructor
    · rintro ⟨hne, hdigits, hn⟩
      exact ⟨s.toList, .inl rfl, hne, hdigits, hn⟩
    · rintro ⟨ds, hds | hds, hne, hdigits, hn⟩
      · rw [hds]
        exact ⟨hne, hdigits, hn⟩
      · exact absurd hds (hunsigned ds)

/-! ## Readers of values -/

/-- A reader gives what a value says, and where it says nothing, the failure is `complaint`. -/
structure Parses (parse : String → Except Failure α) (Means : String → α → Prop)
    (complaint : String → Failure) : Prop where
  ok : ∀ {raw x}, parse raw = .ok x ↔ Means raw x
  error : ∀ {raw f}, parse raw = .error f ↔ (∀ x, ¬ Means raw x) ∧ f = complaint raw

theorem parses_number (name kind : String) (low high : Nat) :
    Parses (number name kind low high) (SaysNumber low high)
      fun raw => .configuration (name ++ " must be " ++ kind ++ ", got " ++ Text.quoted raw) := by
  have hread {raw : String} {n : Nat} :
      readNumber? low high raw = some n ↔ SaysNumber low high raw n := by
    rw [readNumber?, Option.filter_eq_some_iff, readDigits?_eq_some]
    simp [SaysNumber]
  have hnone {raw : String} :
      readNumber? low high raw = none ↔ ∀ n, ¬ SaysNumber low high raw n := by
    simp only [← hread, Option.eq_none_iff_forall_ne_some, ne_eq]
  constructor
  · intro raw n
    rw [← hread, number]
    cases readNumber? low high raw <;> simp
  · intro raw f
    rw [← hnone, number]
    cases readNumber? low high raw <;> simp [eq_comm]

theorem parses_dispatch : Parses Dispatch.ofSetting SaysDispatch fun raw =>
    .configuration ("unknown tool dispatch mode: " ++ Text.lowercase (Text.trim raw)) := by
  have hfind {word : String} {d : Dispatch} :
      Dispatch.all.find? (·.name = word) = some d ↔ word = d.name := by
    constructor
    · intro h
      have hname := List.find?_some h
      exact (of_decide_eq_true hname).symm
    · rintro rfl
      cases d <;> rfl
  have hnone {word : String} :
      Dispatch.all.find? (·.name = word) = none ↔ ∀ d : Dispatch, ¬ word = d.name := by
    simp only [← hfind, Option.eq_none_iff_forall_ne_some, ne_eq]
  constructor
  · intro raw d
    rw [SaysDispatch, ← hfind, Dispatch.ofSetting]
    cases Dispatch.all.find? (·.name = Text.lowercase (Text.trim raw)) <;> simp
  · intro raw f
    simp only [SaysDispatch]
    rw [← hnone, Dispatch.ofSetting]
    cases Dispatch.all.find? (·.name = Text.lowercase (Text.trim raw)) <;> simp [eq_comm]

/-! ## Variables -/

variable {env env' : Environment} {name : String}

/-- A variable is set, and not to white space. -/
def Given (env : Environment) (name raw : String) : Prop :=
  env name = some raw ∧ Text.trim raw ≠ ""

/-- A variable says `x`, or it says nothing and `x` stands for that. -/
def Reads (env : Environment) (name : String) (absent : α) (Means : String → α → Prop) (x : α) :
    Prop :=
  (∃ raw, Given env name raw ∧ Means raw x) ∨ ((∀ raw, ¬ Given env name raw) ∧ x = absent)

/-- A variable is set to something that it cannot be. -/
def Offends (env : Environment) (name : String) (Means : String → α → Prop) : Prop :=
  ∃ raw, Given env name raw ∧ ∀ x, ¬ Means raw x

theorem value?_eq_some {raw : String} : value? env name = some raw ↔ Given env name raw := by
  rw [value?, Option.filter_eq_some_iff, Given, ne_eq, Text.trim_eq_empty]
  simp

theorem value?_eq_none : value? env name = none ↔ ∀ raw, ¬ Given env name raw := by
  simp only [← value?_eq_some, Option.eq_none_iff_forall_ne_some, ne_eq]

theorem Given.unique {raw raw' : String} (h : Given env name raw) (h' : Given env name raw') :
    raw = raw' := Option.some.inj (h.1.symm.trans h'.1)

section Reader

variable {α : Type} {parse : String → Except Failure α} {Means : String → α → Prop}
  {complaint : String → Failure} {absent : α}

theorem reads_iff {x : α} : Reads env name absent Means x ↔
    match value? env name with
    | some raw => Means raw x
    | none => x = absent := by
  cases h : value? env name with
  | some raw =>
      have hraw := value?_eq_some.mp h
      constructor
      · rintro (⟨raw', hraw', hx⟩ | ⟨hnone, -⟩)
        · exact hraw.unique hraw' ▸ hx
        · exact absurd hraw (hnone raw)
      · exact fun hx => .inl ⟨raw, hraw, hx⟩
  | none =>
      have hnone := value?_eq_none.mp h
      constructor
      · rintro (⟨raw, hraw, -⟩ | ⟨-, hx⟩)
        · exact absurd hraw (hnone raw)
        · exact hx
      · exact fun hx => .inr ⟨hnone, hx⟩

variable (h : Parses parse Means complaint)

include h

theorem Parses.readOr_ok {x : α} :
    readOr env name absent parse = .ok x ↔ Reads env name absent Means x := by
  rw [reads_iff, readOr]
  cases value? env name with
  | some raw => exact h.ok
  | none => simp [eq_comm]

theorem Parses.readOr_error {f : Failure} : readOr env name absent parse = .error f ↔
    ∃ raw, Given env name raw ∧ (∀ x, ¬ Means raw x) ∧ f = complaint raw := by
  simp only [readOr, ← value?_eq_some]
  cases value? env name with
  | some raw => simp [h.error]
  | none => simp

/-- Either a variable is read, or it is set to something that it cannot be. -/
theorem Parses.readOr_isOk :
    (∃ x, readOr env name absent parse = .ok x) ↔ ¬ Offends env name Means := by
  constructor
  · rintro ⟨x, hx⟩ ⟨raw, hraw, hbad⟩
    have herror : readOr env name absent parse = .error (complaint raw) :=
      h.readOr_error.mpr ⟨raw, hraw, hbad, rfl⟩
    exact nomatch hx.symm.trans herror
  · intro hfine
    cases hread : readOr env name absent parse with
    | ok x => exact ⟨x, rfl⟩
    | error f =>
        obtain ⟨raw, hraw, hbad, -⟩ := h.readOr_error.mp hread
        exact absurd ⟨raw, hraw, hbad⟩ hfine

end Reader

/-! ## Environments -/

/-- Settings that are what the variables say. -/
structure Accepts (env : Environment) (s : Settings) : Prop where
  port : Reads env "PORT" 8080 (SaysNumber 0 65535) s.port
  maxIterations :
    Reads env "MAX_TOOL_ITERATIONS" 10 (SaysNumber 1 (2 ^ 64 - 1)) s.agent.maxIterations
  dispatch : Reads env "TOOL_DISPATCH" .sequential SaysDispatch s.agent.dispatch
  backendUrl : Reads env "OLLAMA_URL" "http://localhost:11434" Eq s.backendUrl
  serviceUrl : Reads env "PYTHON_EXECUTOR_URL" "http://localhost:8002" Eq s.tools.serviceUrl
  allowsLocalCode :
    Reads env "ALLOW_INSECURE_CODE_FALLBACK" false SaysYes s.tools.allowsLocalCode
  interpreter : Reads env "PYTHON_BIN" "python3" Eq s.tools.interpreter
  systemPrompt : s.agent.systemPrompt = AgentConfig.defaultPrompt
  limit : s.tools.limit = .ofSeconds 30

/-- The first variable that is not understood is reported. -/
inductive Refuses (env : Environment) : Failure → Prop
  | port {raw : String} (h : Given env "PORT" raw) (hbad : ∀ n, ¬ SaysNumber 0 65535 raw n) :
      Refuses env (.configuration ("PORT must be a port number, got " ++ Text.quoted raw))
  | maxIterations {raw : String} (hport : ¬ Offends env "PORT" (SaysNumber 0 65535))
      (h : Given env "MAX_TOOL_ITERATIONS" raw) (hbad : ∀ n, ¬ SaysNumber 1 (2 ^ 64 - 1) raw n) :
      Refuses env (.configuration
        ("MAX_TOOL_ITERATIONS must be a positive integer, got " ++ Text.quoted raw))
  | dispatch {raw : String} (hport : ¬ Offends env "PORT" (SaysNumber 0 65535))
      (hmax : ¬ Offends env "MAX_TOOL_ITERATIONS" (SaysNumber 1 (2 ^ 64 - 1)))
      (h : Given env "TOOL_DISPATCH" raw) (hbad : ∀ d, ¬ SaysDispatch raw d) :
      Refuses env (.configuration
        ("unknown tool dispatch mode: " ++ Text.lowercase (Text.trim raw)))

theorem parses_port : Parses (number "PORT" "a port number" 0 65535) (SaysNumber 0 65535)
    fun raw => .configuration ("PORT must be a port number, got " ++ Text.quoted raw) :=
  parses_number ..

theorem parses_maxIterations :
    Parses (number "MAX_TOOL_ITERATIONS" "a positive integer" 1 word64Max)
      (SaysNumber 1 (2 ^ 64 - 1)) fun raw => .configuration
        ("MAX_TOOL_ITERATIONS must be a positive integer, got " ++ Text.quoted raw) :=
  parses_number ..

theorem reads_value {absent x : String} :
    (value? env name).getD absent = x ↔ Reads env name absent Eq x := by
  rw [reads_iff]
  cases value? env name with
  | some raw => rfl
  | none => exact eq_comm

theorem reads_yes {yes : Bool} :
    (value? env name).any isYes = yes ↔ Reads env name false SaysYes yes := by
  rw [reads_iff]
  cases value? env name with
  | none => exact eq_comm
  | some raw =>
      have hyes : isYes raw = true ↔ Text.lowercase (Text.trim raw) ∈ ["true", "1"] :=
        List.contains_iff_mem
      have hsays : SaysYes raw yes ↔ isYes raw = yes := by
        rw [SaysYes, ← hyes, ← Bool.eq_iff_iff, eq_comm]
      simp only [Option.any_some, hsays]

theorem accepts_iff {s : Settings} :
    Accepts env s ↔ readPort env = .ok s.port ∧ readMaxIterations env = .ok s.agent.maxIterations ∧
      readDispatch env = .ok s.agent.dispatch ∧
      s = ⟨s.port, (value? env "OLLAMA_URL").getD default.backendUrl,
        ⟨default.agent.systemPrompt, s.agent.maxIterations, s.agent.dispatch⟩, readTools env⟩ := by
  rw [readPort, parses_port.readOr_ok, readMaxIterations, parses_maxIterations.readOr_ok,
    readDispatch, parses_dispatch.readOr_ok]
  constructor
  · rintro ⟨hport, hmax, hdispatch, hbackend, hservice, hyes, hinterpreter, hprompt, hlimit⟩
    refine ⟨hport, hmax, hdispatch, ?_⟩
    obtain ⟨port, backendUrl, ⟨prompt, max, dispatch⟩, ⟨url, limit, allows, interpreter⟩⟩ := s
    rw [← reads_value] at hbackend hservice hinterpreter
    rw [← reads_yes] at hyes
    subst hbackend hservice hinterpreter hyes hprompt hlimit
    rfl
  · rintro ⟨hport, hmax, hdispatch, hs⟩
    rw [hs]
    exact ⟨hport, hmax, hdispatch, reads_value.mp rfl, reads_value.mp rfl, reads_yes.mp rfl,
      reads_value.mp rfl, rfl, rfl⟩

theorem ofEnvironment_ok {s : Settings} : ofEnvironment env = .ok s ↔ Accepts env s := by
  rw [accepts_iff, ofEnvironment]
  cases readPort env with
  | error f => simp [bind, Except.bind]
  | ok port =>
    cases readMaxIterations env with
    | error f => simp [bind, Except.bind]
    | ok max =>
      cases readDispatch env with
      | error f => simp [bind, Except.bind]
      | ok dispatch =>
        simp only [bind, Except.bind, Except.ok.injEq]
        constructor
        · rintro rfl
          exact ⟨rfl, rfl, rfl, rfl⟩
        · rintro ⟨rfl, rfl, rfl, hs⟩
          exact hs.symm

theorem readPort_isOk :
    (∃ n, readPort env = .ok n) ↔ ¬ Offends env "PORT" (SaysNumber 0 65535) :=
  parses_port.readOr_isOk

theorem readMaxIterations_isOk : (∃ n, readMaxIterations env = .ok n) ↔
    ¬ Offends env "MAX_TOOL_ITERATIONS" (SaysNumber 1 (2 ^ 64 - 1)) :=
  parses_maxIterations.readOr_isOk

theorem ofEnvironment_error {f : Failure} : ofEnvironment env = .error f ↔ Refuses env f := by
  rw [ofEnvironment]
  constructor
  · intro h
    cases hport : readPort env with
    | error g =>
        obtain ⟨raw, hraw, hbad, rfl⟩ := parses_port.readOr_error.mp hport
        rw [hport] at h
        cases h
        exact .port hraw hbad
    | ok port =>
        have hfine := readPort_isOk.mp ⟨port, hport⟩
        cases hmax : readMaxIterations env with
        | error g =>
            obtain ⟨raw, hraw, hbad, rfl⟩ := parses_maxIterations.readOr_error.mp hmax
            rw [hport, hmax] at h
            cases h
            exact .maxIterations hfine hraw hbad
        | ok max =>
            cases hdispatch : readDispatch env with
            | error g =>
                obtain ⟨raw, hraw, hbad, rfl⟩ := parses_dispatch.readOr_error.mp hdispatch
                rw [hport, hmax, hdispatch] at h
                cases h
                exact .dispatch hfine (readMaxIterations_isOk.mp ⟨max, hmax⟩) hraw hbad
            | ok dispatch =>
                rw [hport, hmax, hdispatch] at h
                cases h
  · intro h
    cases h with
    | port hraw hbad =>
        rw [readPort, parses_port.readOr_error.mpr ⟨_, hraw, hbad, rfl⟩]
        rfl
    | maxIterations hfine hraw hbad =>
        obtain ⟨port, hport⟩ := readPort_isOk.mpr hfine
        rw [hport, readMaxIterations, parses_maxIterations.readOr_error.mpr ⟨_, hraw, hbad, rfl⟩]
        rfl
    | dispatch hfine hfine' hraw hbad =>
        obtain ⟨port, hport⟩ := readPort_isOk.mpr hfine
        obtain ⟨max, hmax⟩ := readMaxIterations_isOk.mpr hfine'
        rw [hport, hmax, readDispatch, parses_dispatch.readOr_error.mpr ⟨_, hraw, hbad, rfl⟩]
        rfl

theorem refuses_iff : (∃ f, Refuses env f) ↔ Offends env "PORT" (SaysNumber 0 65535) ∨
    Offends env "MAX_TOOL_ITERATIONS" (SaysNumber 1 (2 ^ 64 - 1)) ∨
    Offends env "TOOL_DISPATCH" SaysDispatch := by
  constructor
  · rintro ⟨f, hf⟩
    cases hf with
    | port hraw hbad => exact .inl ⟨_, hraw, hbad⟩
    | maxIterations _ hraw hbad => exact .inr (.inl ⟨_, hraw, hbad⟩)
    | dispatch _ _ hraw hbad => exact .inr (.inr ⟨_, hraw, hbad⟩)
  · intro h
    by_cases hport : Offends env "PORT" (SaysNumber 0 65535)
    · obtain ⟨raw, hraw, hbad⟩ := hport
      exact ⟨_, .port hraw hbad⟩
    by_cases hmax : Offends env "MAX_TOOL_ITERATIONS" (SaysNumber 1 (2 ^ 64 - 1))
    · obtain ⟨raw, hraw, hbad⟩ := hmax
      exact ⟨_, .maxIterations hport hraw hbad⟩
    obtain ⟨raw, hraw, hbad⟩ := (h.resolve_left hport).resolve_left hmax
    exact ⟨_, .dispatch hport hmax hraw hbad⟩

/-! ## Environments that say the same -/

theorem ofEnvironment_congr (h : ∀ name ∈ variableNames, value? env name = value? env' name) :
    ofEnvironment env = ofEnvironment env' := by
  simp only [variableNames, List.forall_mem_cons] at h
  obtain ⟨hport, hmax, hdispatch, hbackend, hservice, hyes, hinterpreter, -⟩ := h
  simp only [ofEnvironment, readPort, readMaxIterations, readDispatch, readTools, readOr, hport,
    hmax, hdispatch, hbackend, hservice, hyes, hinterpreter]

theorem value?_update_blank (env : Environment) (name : String) {raw : String}
    (h : Text.isBlankText raw) :
    value? (Function.update env name (some raw)) = value? (Function.update env name none) := by
  funext other
  by_cases hother : other = name
  · subst hother
    simp [value?, h]
  · simp [value?, hother]

/-- The variables whose values are trimmed. -/
def trimmedNames : List String :=
  ["PORT", "MAX_TOOL_ITERATIONS", "TOOL_DISPATCH", "ALLOW_INSECURE_CODE_FALLBACK"]

section Trimmed

variable {α : Type} {Means : String → α → Prop} {absent x : α}

theorem Reads.of_eq (h : Reads env name absent Means x) (heq : env name = env' name) :
    Reads env' name absent Means x := by
  simpa only [Reads, Given, heq] using h

/-- Only what is left of a value when it is trimmed is looked at. -/
theorem Reads.of_trim (h : Reads env name absent Means x)
    (hmeans : ∀ {raw raw'}, Text.trim raw = Text.trim raw' → Means raw x → Means raw' x)
    (heq : (env name).map Text.trim = (env' name).map Text.trim) :
    Reads env' name absent Means x := by
  rcases h with ⟨raw, ⟨hraw, hne⟩, hx⟩ | ⟨hnone, hx⟩
  · rw [hraw, Option.map_some, eq_comm, Option.map_eq_some_iff] at heq
    obtain ⟨raw', hraw', htrim⟩ := heq
    exact .inl ⟨raw', ⟨hraw', htrim ▸ hne⟩, hmeans htrim.symm hx⟩
  · refine .inr ⟨fun raw' hraw' => ?_, hx⟩
    rw [hraw'.1, Option.map_some, Option.map_eq_some_iff] at heq
    obtain ⟨raw, hraw, htrim⟩ := heq
    exact hnone raw ⟨hraw, htrim ▸ hraw'.2⟩

end Trimmed

theorem Accepts.of_trim {s : Settings} {raw raw' : String}
    (h : Accepts (Function.update env name (some raw)) s) (hname : name ∈ trimmedNames)
    (htrim : Text.trim raw = Text.trim raw') :
    Accepts (Function.update env name (some raw')) s := by
  have hmap (other : String) : (Function.update env name (some raw) other).map Text.trim =
      (Function.update env name (some raw') other).map Text.trim := by
    by_cases hother : other = name
    · subst hother
      simp [htrim]
    · simp [hother]
  have hsame {other : String} (hother : other ∉ trimmedNames) :
      Function.update env name (some raw) other = Function.update env name (some raw') other := by
    have hne : other ≠ name := fun heq => hother (heq ▸ hname)
    simp [hne]
  constructor
  · exact h.port.of_trim (fun heq => by rw [SaysNumber, SaysNumber, heq]; exact id) (hmap _)
  · exact h.maxIterations.of_trim (fun heq => by rw [SaysNumber, SaysNumber, heq]; exact id)
      (hmap _)
  · exact h.dispatch.of_trim (fun heq => by rw [SaysDispatch, SaysDispatch, heq]; exact id)
      (hmap _)
  · exact h.backendUrl.of_eq (hsame (by decide))
  · exact h.serviceUrl.of_eq (hsame (by decide))
  · exact h.allowsLocalCode.of_trim (fun heq => by rw [SaysYes, SaysYes, heq]; exact id) (hmap _)
  · exact h.interpreter.of_eq (hsame (by decide))
  · exact h.systemPrompt
  · exact h.limit

/-! ## What the server understands -/

/-- The server starts exactly where each of the three variables that can be wrong is one of the
values it may have, or blank; the settings are then what the variables say. -/
theorem understood (env : Environment) :
    ((∃ f, ofEnvironment env = .error f) ↔ Offends env "PORT" (SaysNumber 0 65535) ∨
      Offends env "MAX_TOOL_ITERATIONS" (SaysNumber 1 (2 ^ 64 - 1)) ∨
      Offends env "TOOL_DISPATCH" SaysDispatch) ∧
    (∀ f, ofEnvironment env = .error f ↔ Refuses env f) ∧
    (∀ s, ofEnvironment env = .ok s ↔ Accepts env s) ∧
    (∀ s, ofEnvironment env = .ok s → 1 ≤ s.agent.maxIterations) ∧
    (∀ name raw, Text.isBlankText raw →
      ofEnvironment (Function.update env name (some raw)) =
        ofEnvironment (Function.update env name none)) ∧
    (∀ name ∈ trimmedNames, ∀ front raw back, Text.isBlankText front → Text.isBlankText back →
      ∀ s, ofEnvironment (Function.update env name (some raw)) = .ok s ↔
        ofEnvironment (Function.update env name (some (front ++ raw ++ back))) = .ok s) ∧
    ∀ env' : Environment, (∀ name ∈ variableNames, env' name = env name) →
      ofEnvironment env' = ofEnvironment env := by
  refine ⟨?_, fun f => ofEnvironment_error, fun s => ofEnvironment_ok, fun s hs => ?_,
    fun name raw hblank => ?_, fun name hname front raw back hfront hback s => ?_,
    fun env' heq => ?_⟩
  · simp only [ofEnvironment_error, refuses_iff]
  · rcases (ofEnvironment_ok.mp hs).maxIterations with ⟨raw, -, -, hlow, -⟩ | ⟨-, hten⟩
    · exact hlow
    · rw [hten]
      decide
  · rw [ofEnvironment_congr fun other _ => congrFun (value?_update_blank env name hblank) other]
  · have htrim : Text.trim (front ++ raw ++ back) = Text.trim raw := Text.trim_padded hfront hback
    rw [ofEnvironment_ok, ofEnvironment_ok]
    exact ⟨fun h => h.of_trim hname htrim.symm, fun h => h.of_trim hname htrim⟩
  · exact ofEnvironment_congr fun name hname => by rw [value?, value?, heq name hname]

/-- A port with a sign, a zero in front and white space of two kinds around it. -/
theorem understood_padded :
    let env : Environment := Function.update (fun _ => none) "TOOL_DISPATCH" (some "Concurrent")
    let s : Settings := { default with port := 80, agent.dispatch := .concurrent }
    ofEnvironment (Function.update env "PORT" (some ("\u2003" ++ "+080" ++ "\n"))) = .ok s ∧
      1 ≤ s.agent.maxIterations := by
  intro env s
  have hport : ofEnvironment (Function.update env "PORT" (some "+080")) = .ok s := by
    decide +kernel
  obtain ⟨-, -, -, hpositive, -⟩ := understood (Function.update env "PORT" (some "+080"))
  obtain ⟨-, -, -, -, -, hpadded, -⟩ := understood env
  exact ⟨(hpadded "PORT" (by decide) "\u2003" "+080" "\n" rfl rfl s).mp hport, hpositive s hport⟩

/-! ## Starting -/

section Starting

variable {env : Environment} {file : Environment} {refused : Nat → Option String}

/-- The server starts exactly where it understands the environment, completed by the file, and the
port can be had. -/
theorem start_ok {s : Settings} :
    start env file refused = .ok s ↔ Accepts (env.completed file) s ∧ refused s.port = none := by
  simp only [start, ← ofEnvironment_ok]
  cases ofEnvironment (env.completed file) with
  | error f => simp
  | ok s' =>
      rw [Except.ok.injEq]
      constructor
      · intro h
        cases hport : refused s'.port with
        | none =>
            simp only [hport, Except.ok.injEq] at h
            exact ⟨h, h ▸ hport⟩
        | some reason => simp [hport] at h
      · rintro ⟨rfl, hnone⟩
        simp only [hnone]

/-- A setting that is not understood is reported before the port is tried. -/
theorem start_error {e : StartFailure} :
    start env file refused = .error e ↔
      (∃ f, Refuses (env.completed file) f ∧ e = .settings f) ∨
      ∃ s reason, Accepts (env.completed file) s ∧ refused s.port = some reason ∧
        e = .port reason := by
  simp only [start, ← ofEnvironment_ok, ← ofEnvironment_error]
  cases ofEnvironment (env.completed file) with
  | error f => simp [eq_comm]
  | ok s => cases hport : refused s.port <;> simp [hport, eq_comm]

/-- Where all variables are set, a file changes nothing. -/
theorem start_of_isSome (h : ∀ name ∈ variableNames, (env name).isSome) (file file' : Environment)
    (refused : Nat → Option String) : start env file refused = start env file' refused := by
  have hvalue name (hname : name ∈ variableNames) :
      value? (env.completed file) name = value? (env.completed file') name := by
    obtain ⟨raw, hraw⟩ := Option.isSome_iff_exists.mp (h name hname)
    simp only [value?, Environment.completed, hraw, Option.some_or]
  simp only [start, ofEnvironment_congr hvalue]

end Starting

end ChatAgent.Settings
