import ChatAgent.Proofs.Course

/-!
# One after the other, or all at once

Whether the tools of a turn run one after the other or all at once cannot be told from outside: the
client is told the same, the backend is asked the same, the run ends alike and the tools do the same
work (`Agent.follow_of_dispatch`). Only the order in which the steps of different tools are taken
depends on it.
-/

namespace ChatAgent

variable {α β : Type}

/-! ## Processes that look alike -/

namespace Process

/-- Two processes differ at most in the order in which tools take their steps. -/
structure Alike (p q : Process α) : Prop where
  events : Action.events p.actions = Action.events q.actions
  requests : Action.requests p.actions = Action.requests q.actions
  steps : (Action.steps p.actions).Perm (Action.steps q.actions)
  ending : p.ending = q.ending

theorem Alike.refl (p : Process α) : p.Alike p := ⟨rfl, rfl, .rfl, rfl⟩

/-- What does not finish does not go on. -/
theorem bind_unfinished {p : Process α} (h : ∀ a, p.ending ≠ .finished a) (k : α → Process β) :
    (p.bind k).actions = p.actions ∧
      (p.bind k).ending =
        match p.ending with
        | .failed f => .failed f
        | _ => .hung := by
  induction p with
  | done a => exact absurd rfl (h a)
  | fail f => exact ⟨rfl, rfl⟩
  | hang => exact ⟨rfl, rfl⟩
  | act a next ih =>
      obtain ⟨ha, he⟩ := ih () h
      exact ⟨congrArg (a :: ·) ha, he⟩

theorem Alike.bind {p q : Process α} {k k' : α → Process β} (h : p.Alike q)
    (hk : ∀ a, (k a).Alike (k' a)) : (p.bind k).Alike (q.bind k') := by
  by_cases hf : ∃ a, p.ending = .finished a
  · obtain ⟨a, hp⟩ := hf
    have hq : q.ending = .finished a := h.ending ▸ hp
    constructor
    · simp [actions_bind_finished hp, actions_bind_finished hq, h.events, (hk a).events]
    · simp [actions_bind_finished hp, actions_bind_finished hq, h.requests, (hk a).requests]
    · simpa [actions_bind_finished hp, actions_bind_finished hq] using h.steps.append (hk a).steps
    · rw [ending_bind_finished hp, ending_bind_finished hq, (hk a).ending]
  · obtain ⟨ha, he⟩ := bind_unfinished (fun a hp => hf ⟨a, hp⟩) k
    obtain ⟨ha', he'⟩ := bind_unfinished (fun a hq => hf ⟨a, h.ending.trans hq⟩) k'
    constructor
    · rw [ha, ha', h.events]
    · rw [ha, ha', h.requests]
    · rw [ha, ha']
      exact h.steps
    · rw [he, he', h.ending]

theorem Alike.congruence : Congruence @Alike := ⟨.refl, .bind⟩

theorem Alike.ofActivity {a b : Activity α}
    (hsteps : (a.steps.filter (· ≠ .pause)).Perm (b.steps.filter (· ≠ .pause)))
    (hresult : a.result = b.result) : (ofActivity a).Alike (ofActivity b) := by
  constructor
  · simp
  · simp
  · simpa using hsteps
  · rw [ending_ofActivity, ending_ofActivity, hresult]

/-- A patient client, whom no tool makes go away, is told the same. -/
theorem Alike.follow_patient {p q : Process α} (h : p.Alike q) (hp : .step .dismiss ∉ p.actions)
    (hq : .step .dismiss ∉ q.actions) :
    (p.follow .patient .empty).1.events = (q.follow .patient .empty).1.events ∧
      (p.follow .patient .empty).1.requests = (q.follow .patient .empty).1.requests ∧
      (p.follow .patient .empty).2 = (q.follow .patient .empty).2 ∧
      (p.follow .patient .empty).1.steps.Perm (q.follow .patient .empty).1.steps := by
  rw [Process.follow_patient hp, Process.follow_patient hq]
  exact ⟨h.events, h.requests, h.ending, h.steps⟩

end Process

/-! ## Batches -/

/-- Waits so many times before it says its name. -/
def Tool.waiting (name : String) (pauses : Nat) : Tool where
  definition := { name := name, description := "", parameters := .none }
  run _ := ⟨List.replicate pauses .pause ++ [.note name], some (.success name)⟩

namespace Executor

/-- The work of a batch is the same in both modes; only the rounds take it in another order. -/
theorem work_perm {r : Registry} (h : r.Finishes) (d d' : Dispatch) (calls : List ToolCall) :
    ((ofRegistry r d).work calls).Perm ((ofRegistry r d').work calls) := by
  have hwork (e : Executor) :
      e.work calls = (e.executeAll calls).steps.filterMap (Option.guard (· ≠ .pause)) :=
    (congrFun List.filterMap_eq_filter _).symm
  rw [hwork, hwork]
  exact (filterMap_executeAll_perm h d rfl calls).trans
    (filterMap_executeAll_perm h d' rfl calls).symm

theorem useTools_alike {r : Registry} (h : r.Finishes) (d d' : Dispatch) (calls : List ToolCall) :
    (Agent.useTools (ofRegistry r d) calls).Alike (Agent.useTools (ofRegistry r d') calls) := by
  have hresult : ((ofRegistry r d).executeAll calls).result =
      ((ofRegistry r d').executeAll calls).result := by
    rw [result_executeAll, result_executeAll]
    rfl
  have hbatch := Process.Alike.ofActivity (work_perm h d d' calls) hresult
  exact .bind (.refl _) fun _ => .bind (.refl _) fun _ => .bind hbatch fun _ => .refl _

end Executor

/-! ## Runs -/

/-- A slow tool and a quick one. -/
def Registry.uneven : Registry := .ofList [.waiting "slow" 2, .waiting "quick" 0]

/-- It asks for both of them and for one that there is not, and then it is done. -/
def Backend.hurried : Backend :=
  .scripted [.chunks [.calls (["slow", "none", "quick"].map (.ofFunction · .empty))]]
    (some (.chunks [.content "Done."]))

namespace Agent

variable {config : AgentConfig} {backend : Backend} {registry : Registry}

theorem run_alike (hf : registry.Finishes) (d d' : Dispatch) (request : ChatRequest) :
    ((ofRegistry { config with dispatch := d } backend registry).run request).Alike
      ((ofRegistry { config with dispatch := d' } backend registry).run request) :=
  run_congruence (a := ofRegistry { config with dispatch := d } backend registry)
    (b := ofRegistry { config with dispatch := d' } backend registry) Process.Alike.congruence rfl
    rfl rfl rfl (fun _ => Executor.useTools_alike hf d d') request

/-- To whoever takes everything, a run that runs its tools all at once is the same as one that runs
them one after the other. -/
theorem follow_of_dispatch (config : AgentConfig) (backend : Backend) (request : ChatRequest)
    (hf : registry.Finishes) (hd : registry.Discreet) :
    let run d := (ofRegistry { config with dispatch := d } backend registry).run request
    let together := (run .concurrent).follow .patient .empty
    let inOrder := (run .sequential).follow .patient .empty
    together.1.events = inOrder.1.events ∧ together.1.requests = inOrder.1.requests ∧
      together.2 = inOrder.2 ∧ together.1.steps.Perm inOrder.1.steps :=
  (run_alike hf _ _ request).follow_patient (dismiss_not_mem_run hd _ _ request)
    (dismiss_not_mem_run hd _ _ request)

/-- The quick tool is done first when it need not wait for the slow one. -/
theorem follow_of_dispatch_uneven :
    let run d := (ofRegistry ⟨"Be brief.", 2, d⟩ .hurried .uneven).run .hello
    let together := (run .concurrent).follow .patient .empty
    let inOrder := (run .sequential).follow .patient .empty
    (together.1.events = inOrder.1.events ∧ together.1.requests = inOrder.1.requests ∧
        together.2 = inOrder.2 ∧ together.1.steps.Perm inOrder.1.steps) ∧
      together.1.notes = ["quick", "slow"] ∧ inOrder.1.notes = ["slow", "quick"] := by
  have hfinishes : Registry.uneven.Finishes :=
    Registry.finishes_ofList (by simp [Tool.waiting])
  have hdiscreet : Registry.uneven.Discreet :=
    Registry.discreet_ofList (by simp [Tool.waiting])
  exact ⟨follow_of_dispatch ⟨"Be brief.", 2, .sequential⟩ _ .hello hfinishes hdiscreet,
    by decide +kernel, by decide +kernel⟩

end Agent

end ChatAgent
