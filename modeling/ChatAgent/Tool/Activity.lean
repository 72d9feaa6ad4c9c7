import ChatAgent.Tool.Call

/-!
Activities: what a tool does when it runs, step by step, and what comes of it. Tools run one after
the other, or all at once; then each goes on until it pauses, in order, and round after round, until
none has anything left to do. Where the execution of a call starts and where it has finished is marked
among the steps.
-/

namespace ChatAgent

/-- A call that is handed to the execution service. -/
structure Delegation where
  tool : String
  arguments : Json
  deriving DecidableEq

/-- One step of a tool, or of what runs it. -/
inductive Step where
  /-- The execution of a call starts. -/
  | start (call : ToolCall)
  /-- The execution of a call has finished. -/
  | finish (call : ToolCall)
  /-- The tool leaves a mark. -/
  | note (line : String)
  /-- The tool waits, and others may go on. -/
  | pause
  /-- The tool hands its call to the execution service. -/
  | delegate (call : Delegation)
  /-- The tool has a local interpreter run a program text. -/
  | interpret (code : String)
  /-- The tool makes the client go away. -/
  | dismiss
  deriving DecidableEq

namespace Step

/-- Whether a step marks where an execution starts or has finished. -/
def isMark : Step → Bool
  | start _ | finish _ => true
  | _ => false

end Step

/-- The steps of a tool, and its result unless it never finishes. -/
structure Activity (α : Type) where
  steps : List Step
  result : Option α
  deriving DecidableEq

namespace Activity

/-- Finishes at once. -/
def finished (a : α) : Activity α := ⟨[], some a⟩

def map (f : α → β) (a : Activity α) : Activity β := ⟨a.steps, a.result.map f⟩

/-- The activity as the execution of a call, between its marks. Only whoever executes a call marks it;
marks that a tool leaves itself do not count. -/
def execution (call : ToolCall) (a : Activity α) : Activity α where
  steps := .start call :: (a.steps.filter (!·.isMark) ++ if a.result.isSome then [.finish call] else [])
  result := a.result

/-! ## One after the other -/

/-- All activities in order. One that never finishes keeps the later ones from beginning. -/
def inOrder : List (Activity α) → Activity (List α)
  | [] => finished []
  | a :: rest =>
    match a.result with
    | some x => ⟨a.steps ++ (inOrder rest).steps, (inOrder rest).result.map (x :: ·)⟩
    | none => ⟨a.steps, none⟩

/-! ## All at once -/

/-- The steps up to the first pause. -/
def beforePause (steps : List Step) : List Step := steps.takeWhile (· ≠ .pause)

/-- The steps after the first pause. -/
def afterPause (steps : List Step) : List Step := (steps.dropWhile (· ≠ .pause)).tail

theorem length_afterPause_le (steps : List Step) : (afterPause steps).length ≤ steps.length := by
  have h := (List.dropWhile_suffix (p := (· ≠ Step.pause)) (l := steps)).length_le
  simp only [afterPause, List.length_tail]
  omega

theorem length_afterPause_lt {steps : List Step} (h : Step.pause ∈ steps) :
    (afterPause steps).length < steps.length := by
  have h₁ := (List.dropWhile_suffix (p := (· ≠ Step.pause)) (l := steps)).length_le
  have h₂ := List.length_pos_of_mem h
  simp only [afterPause, List.length_tail]
  omega

/-- How many steps several activities have left. -/
def remaining (runs : List (List Step)) : Nat := runs.flatten.length

theorem remaining_afterPause_le (runs : List (List Step)) :
    remaining (runs.map afterPause) ≤ remaining runs := by
  induction runs with
  | nil => simp [remaining]
  | cons r rs ih =>
    have := length_afterPause_le r
    simp only [remaining, List.map_cons, List.flatten_cons, List.length_append] at ih ⊢
    omega

theorem remaining_afterPause_lt {runs : List (List Step)} (h : ∃ r ∈ runs, Step.pause ∈ r) :
    remaining (runs.map afterPause) < remaining runs := by
  induction runs with
  | nil => simp at h
  | cons r rs ih =>
    obtain ⟨s, hs, hp⟩ := h
    have hle := remaining_afterPause_le rs
    have hr := length_afterPause_le r
    simp only [remaining, List.map_cons, List.flatten_cons, List.length_append] at ih hle ⊢
    rcases List.mem_cons.1 hs with rfl | hs
    · have := length_afterPause_lt hp
      omega
    · have := ih ⟨s, hs, hp⟩
      omega

/-- The steps of several activities, round after round. -/
def interleave (runs : List (List Step)) : List Step :=
  if _ : ∃ r ∈ runs, Step.pause ∈ r then
    runs.flatMap beforePause ++ .pause :: interleave (runs.map afterPause)
  else runs.flatten
termination_by remaining runs
decreasing_by simpa using remaining_afterPause_lt ‹_›

/-- All activities at once. -/
def together (activities : List (Activity α)) : Activity (List α) where
  steps := interleave (activities.map (·.steps))
  result := activities.mapM (·.result)

end Activity

end ChatAgent
