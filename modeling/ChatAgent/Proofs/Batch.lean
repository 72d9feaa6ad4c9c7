import ChatAgent.Tool.Registry
import Mathlib.Data.List.Perm.Basic

/-!
# Batches of tool calls

A batch has one result for each call, in order. Every call whose tool is registered is executed
exactly once; the executions start in the order of the calls (`Executor.starts_executeAll`) and all
of them finish (`Executor.finishes_executeAll`), whether the tools run one after the other or all at
once.
-/

namespace ChatAgent

variable {α β : Type}

/-! ## Marks -/

namespace Step

def started? : Step → Option ToolCall
  | start c => some c
  | _ => none

def finished? : Step → Option ToolCall
  | finish c => some c
  | _ => none

def starts (ss : List Step) : List ToolCall := ss.filterMap started?

def finishes (ss : List Step) : List ToolCall := ss.filterMap finished?

end Step

namespace Registry

/-- Every tool finishes, whatever its arguments. -/
def Finishes (r : Registry) : Prop :=
  ∀ name t, r.get? name = some t → ∀ arguments, (t.run arguments).result.isSome

/-- No tool makes the client go away. -/
def Discreet (r : Registry) : Prop :=
  ∀ name t, r.get? name = some t → ∀ arguments, .dismiss ∉ (t.run arguments).steps

/-- The calls whose tools are registered. -/
def known (r : Registry) (calls : List ToolCall) : List ToolCall := calls.filter (r.contains ·.name)

theorem mem_insertField {key : String} {value : β} {fields : List (String × β)} {x : String × β}
    (h : x ∈ Json.insertField key value fields) : x = (key, value) ∨ x ∈ fields := by
  induction fields with
  | nil => exact .inl (List.mem_singleton.mp h)
  | cons field fields ih =>
      simp only [Json.insertField] at h
      split at h
      · exact List.mem_cons.mp h
      · split at h
        · exact (List.mem_cons.mp h).imp_right (List.mem_cons_of_mem _)
        · rcases List.mem_cons.mp h with rfl | h
          · exact .inr List.mem_cons_self
          · exact (ih h).imp_right (List.mem_cons_of_mem _)

/-- A tool is found under its own name. -/
theorem of_get?_ofList {ts : List Tool} {name : String} {t : Tool}
    (h : (ofList ts).get? name = some t) : t ∈ ts ∧ t.name = name := by
  have hfold : ∀ (ts : List Tool) (r : Registry) (x : String × Tool),
      x ∈ (ts.foldl register r).tools → (x.2 ∈ ts ∧ x.2.name = x.1) ∨ x ∈ r.tools := by
    intro ts
    induction ts with
    | nil => exact fun r x hx => .inr hx
    | cons u us ih =>
        intro r x hx
        rcases ih _ _ hx with ⟨hm, hn⟩ | hm
        · exact .inl ⟨List.mem_cons_of_mem _ hm, hn⟩
        · rcases mem_insertField hm with rfl | hm
          · exact .inl ⟨List.mem_cons_self, rfl⟩
          · exact .inr hm
  obtain ⟨before, after, he, -⟩ := List.lookup_eq_some_iff.mp h
  rcases hfold ts empty (name, t) (he ▸ by simp) with hm | hm
  · exact hm
  · cases hm

theorem finishes_ofList {ts : List Tool}
    (h : ∀ t ∈ ts, ∀ arguments, (t.run arguments).result.isSome) : (ofList ts).Finishes :=
  fun _ t ht => h t (of_get?_ofList ht).1

theorem discreet_ofList {ts : List Tool}
    (h : ∀ t ∈ ts, ∀ arguments, .dismiss ∉ (t.run arguments).steps) : (ofList ts).Discreet :=
  fun _ t ht => h t (of_get?_ofList ht).1

end Registry

/-! ## One after the other -/

namespace Activity

theorem result_inOrder (as : List (Activity α)) : (inOrder as).result = as.mapM (·.result) := by
  induction as with
  | nil => rfl
  | cons a as ih =>
      rw [List.mapM_cons, inOrder]
      cases ha : a.result with
      | none => rfl
      | some x =>
          simp only [ih]
          cases as.mapM (·.result) <;> rfl

theorem steps_inOrder {as : List (Activity α)} (h : ∀ a ∈ as, a.result.isSome) :
    (inOrder as).steps = as.flatMap (·.steps) := by
  induction as with
  | nil => rfl
  | cons a as ih =>
      obtain ⟨x, hx⟩ := Option.isSome_iff_exists.mp (h a (by simp))
      simp only [inOrder, hx, List.flatMap_cons]
      rw [ih fun b hb => h b (by simp [hb])]

theorem mem_steps_inOrder {as : List (Activity α)} {s : Step} (h : s ∈ (inOrder as).steps) :
    ∃ a ∈ as, s ∈ a.steps := by
  induction as with
  | nil => cases h
  | cons a as ih =>
      simp only [inOrder] at h
      split at h
      · rcases List.mem_append.mp h with h | h
        · exact ⟨a, by simp, h⟩
        · obtain ⟨b, hb, hs⟩ := ih h
          exact ⟨b, by simp [hb], hs⟩
      · exact ⟨a, by simp, h⟩

/-! ## All at once -/

theorem filterMap_around_pause {f : Step → Option β} (hf : f .pause = none) (ss : List Step) :
    (beforePause ss).filterMap f ++ (afterPause ss).filterMap f = ss.filterMap f := by
  induction ss with
  | nil => rfl
  | cons s ss ih =>
      by_cases hs : s = .pause
      · subst hs
        simp [beforePause, afterPause, hf]
      · have hb : beforePause (s :: ss) = s :: beforePause ss := by simp [beforePause, hs]
        have ha : afterPause (s :: ss) = afterPause ss := by simp [afterPause, hs]
        rw [hb, ha, List.filterMap_cons, List.filterMap_cons]
        cases f s with
        | none => exact ih
        | some y => exact congrArg (y :: ·) ih

/-- What comes before the first pauses and what comes after them is all that there is. -/
theorem filterMap_round_perm {f : Step → Option β} (hf : f .pause = none)
    (runs : List (List Step)) :
    ((runs.flatMap beforePause).filterMap f ++ (runs.map afterPause).flatten.filterMap f).Perm
      (runs.flatten.filterMap f) := by
  induction runs with
  | nil => exact .nil
  | cons r rs ih =>
      simp only [List.flatMap_cons, List.map_cons, List.flatten_cons, List.filterMap_append]
      rw [← filterMap_around_pause hf r, List.append_assoc, List.append_assoc]
      refine List.Perm.append_left _ (.trans ?_ (ih.append_left _))
      rw [← List.append_assoc, ← List.append_assoc]
      exact List.perm_append_comm.append_right _

/-- Rounds only reorder what the activities do. -/
theorem filterMap_interleave_perm {f : Step → Option β} (hf : f .pause = none)
    (runs : List (List Step)) :
    ((interleave runs).filterMap f).Perm (runs.flatten.filterMap f) := by
  induction runs using interleave.induct with
  | case1 runs hp ih =>
      rw [interleave, dif_pos hp, List.filterMap_append, List.filterMap_cons_none hf]
      have ih : ((interleave (runs.map afterPause)).filterMap f).Perm
          ((runs.map afterPause).flatten.filterMap f) := by simpa using ih
      exact (ih.append_left _).trans (filterMap_round_perm hf runs)
  | case2 runs hp => rw [interleave, dif_neg hp]

theorem mem_interleave {runs : List (List Step)} {s : Step} (hs : s ≠ .pause)
    (h : s ∈ interleave runs) : ∃ r ∈ runs, s ∈ r := by
  let f : Step → Option Step := fun x => if x = .pause then none else some x
  have hm : s ∈ (interleave runs).filterMap f := List.mem_filterMap.mpr ⟨s, h, by simp [f, hs]⟩
  obtain ⟨x, hx, he⟩ := List.mem_filterMap.mp ((filterMap_interleave_perm rfl runs).subset hm)
  simp only [f] at he
  split at he
  · cases he
  · cases he
    exact List.mem_flatten.mp hx

/-- Where all starts come before the first pause, rounds keep their order. -/
theorem starts_interleave {runs : List (List Step)}
    (h : ∀ r ∈ runs, Step.starts (afterPause r) = []) :
    Step.starts (interleave runs) = Step.starts runs.flatten := by
  have hfirst : ∀ rs : List (List Step), (∀ r ∈ rs, Step.starts (afterPause r) = []) →
      Step.starts (rs.flatMap beforePause) = Step.starts rs.flatten := by
    intro rs hrs
    induction rs with
    | nil => rfl
    | cons r rs ih =>
        simp only [Step.starts, List.flatMap_cons, List.flatten_cons, List.filterMap_append]
          at hrs ih ⊢
        rw [ih fun r hr => hrs r (by simp [hr]), ← filterMap_around_pause rfl r, hrs r (by simp),
          List.append_nil]
  rw [interleave]
  split
  · have hlater : Step.starts (interleave (runs.map afterPause)) = [] := by
      refine List.Perm.eq_nil ((filterMap_interleave_perm rfl _).trans (.of_eq ?_))
      simp only [List.filterMap_flatten, List.flatten_eq_nil_iff, List.mem_map]
      rintro _ ⟨_, ⟨r, hr, rfl⟩, rfl⟩
      exact h r hr
    have hround := hfirst runs h
    simp only [Step.starts] at hlater hround ⊢
    rw [List.filterMap_append, List.filterMap_cons_none rfl, hlater, List.append_nil, hround]
  · rfl

/-! ## Executions -/

/-- A tool's own steps carry no marks. -/
theorem filterMap_unmarked {f : Step → Option β} (hf : ∀ s : Step, s.isMark = false → f s = none)
    (ss : List Step) : (ss.filter (!·.isMark)).filterMap f = [] := by
  rw [List.filterMap_eq_nil_iff]
  intro s hs
  exact hf s (by simpa using (List.mem_filter.mp hs).2)

theorem starts_execution (call : ToolCall) (a : Activity α) :
    Step.starts (a.execution call).steps = [call] := by
  have hown := filterMap_unmarked (f := Step.started?) (by intro s hs; cases s <;> trivial) a.steps
  simp only [Step.starts, execution, List.filterMap_cons, Step.started?, List.filterMap_append]
    at hown ⊢
  rw [hown]
  split <;> rfl

theorem finishes_execution {call : ToolCall} {a : Activity α} (h : a.result.isSome) :
    Step.finishes (a.execution call).steps = [call] := by
  have hown := filterMap_unmarked (f := Step.finished?) (by intro s hs; cases s <;> trivial) a.steps
  rw [Step.finishes, execution, if_pos h, List.filterMap_cons_none rfl, List.filterMap_append, hown]
  rfl

theorem starts_afterPause_execution (call : ToolCall) (a : Activity α) :
    Step.starts (afterPause (a.execution call).steps) = [] := by
  have hall := filterMap_around_pause (f := Step.started?) rfl (a.execution call).steps
  have hfirst : beforePause (a.execution call).steps =
      .start call :: beforePause (a.execution call).steps.tail := by
    simp [beforePause, execution]
  rw [hfirst, List.filterMap_cons_some (show Step.started? (.start call) = some call from rfl)]
    at hall
  have hrest := List.tail_eq_of_cons_eq (hall.trans (starts_execution call a))
  exact (List.append_eq_nil_iff.mp hrest).2

theorem dismiss_mem_execution {call : ToolCall} {a : Activity α}
    (h : .dismiss ∈ (a.execution call).steps) : .dismiss ∈ a.steps := by
  simp only [execution, List.mem_cons, List.mem_append, List.mem_filter, reduceCtorEq, false_or]
    at h
  rcases h with h | h
  · exact h.1
  · split at h <;> simp at h

end Activity

/-! ## The batch of a registry -/

namespace Registry

variable {r : Registry} {call : ToolCall}

theorem callId_of_execute {x : ToolResult} (h : (r.execute call).result = some x) :
    x.callId = call.id := by
  simp only [execute] at h
  split at h
  · simp only [Activity.execution, Activity.map, Option.map_eq_some_iff] at h
    obtain ⟨o, -, rfl⟩ := h
    cases o <;> rfl
  · cases h
    rfl

theorem Finishes.execute (h : r.Finishes) (call : ToolCall) : (r.execute call).result.isSome := by
  simp only [Registry.execute]
  split
  · rename_i t ht
    simpa [Activity.execution, Activity.map] using h _ t ht call.arguments
  · rfl

theorem Discreet.execute (h : r.Discreet) (call : ToolCall) :
    .dismiss ∉ (r.execute call).steps := by
  simp only [Registry.execute]
  split
  · rename_i t ht
    intro hd
    have hm := Activity.dismiss_mem_execution hd
    exact h _ t ht call.arguments hm
  · simp [Activity.finished]

theorem starts_execute (r : Registry) (call : ToolCall) :
    Step.starts (r.execute call).steps = r.known [call] := by
  simp only [execute, known, contains, List.filter_cons, List.filter_nil]
  split
  · rename_i t ht
    rw [Activity.starts_execution, ht]
    rfl
  · rename_i ht
    rw [ht]
    rfl

theorem Finishes.finishes_execute (h : r.Finishes) (call : ToolCall) :
    Step.finishes (r.execute call).steps = r.known [call] := by
  have hx := h.execute call
  simp only [Registry.execute, known, contains, List.filter_cons, List.filter_nil] at hx ⊢
  split at hx
  · rename_i t ht
    simp only [ht]
    exact Activity.finishes_execution hx
  · rename_i ht
    simp only [ht]
    rfl

theorem starts_afterPause_execute (r : Registry) (call : ToolCall) :
    Step.starts (Activity.afterPause (r.execute call).steps) = [] := by
  simp only [execute]
  split
  · exact Activity.starts_afterPause_execution call _
  · rfl

theorem flatMap_known (r : Registry) (calls : List ToolCall) :
    calls.flatMap (fun c => r.known [c]) = r.known calls := by
  induction calls with
  | nil => rfl
  | cons c calls ih =>
      rw [List.flatMap_cons, ih]
      exact (List.filter_append ..).symm

end Registry

namespace Executor

variable {r : Registry} {d : Dispatch} {calls : List ToolCall}

theorem result_executeAll (e : Executor) (calls : List ToolCall) :
    (e.executeAll calls).result = calls.mapM fun c => (e.execute c).result := by
  simp only [executeAll]
  split
  · rw [Activity.result_inOrder, List.mapM_map]
    rfl
  · rw [Activity.together, List.mapM_map]
    rfl

theorem map_some_of_executeAll {e : Executor} {results : List ToolResult}
    (h : (e.executeAll calls).result = some results) :
    calls.map (fun c => (e.execute c).result) = results.map some := by
  rw [result_executeAll] at h
  induction calls generalizing results with
  | nil => cases h; rfl
  | cons c calls ih =>
      simp only [List.mapM_cons, bind, pure, Option.bind_eq_some_iff, Option.some.injEq] at h
      obtain ⟨x, hx, xs, hxs, rfl⟩ := h
      rw [List.map_cons, List.map_cons, hx, ih hxs]

theorem callIds_of_executeAll {results : List ToolResult}
    (h : ((ofRegistry r d).executeAll calls).result = some results) :
    results.map (·.callId) = calls.map (·.id) := by
  have hm := map_some_of_executeAll h
  clear h
  induction calls generalizing results with
  | nil =>
      cases results with
      | nil => rfl
      | cons x xs => cases hm
  | cons c calls ih =>
      cases results with
      | nil => cases hm
      | cons x xs =>
          simp only [List.map_cons, List.cons.injEq] at hm ⊢
          exact ⟨Registry.callId_of_execute hm.1, ih hm.2⟩

theorem exists_results (h : r.Finishes) (calls : List ToolCall) :
    ∃ results, ((ofRegistry r d).executeAll calls).result = some results := by
  rw [result_executeAll]
  induction calls with
  | nil => exact ⟨[], rfl⟩
  | cons c calls ih =>
      obtain ⟨x, hx⟩ := Option.isSome_iff_exists.mp (h.execute c)
      obtain ⟨xs, hxs⟩ := ih
      refine ⟨x :: xs, ?_⟩
      simp only [ofRegistry] at hxs ⊢
      simp [List.mapM_cons, hx, hxs]

theorem dismiss_not_mem_executeAll (h : r.Discreet) (d : Dispatch) (calls : List ToolCall) :
    .dismiss ∉ ((ofRegistry r d).executeAll calls).steps := by
  intro hm
  simp only [executeAll] at hm
  split at hm
  · obtain ⟨a, ha, hs⟩ := Activity.mem_steps_inOrder hm
    obtain ⟨c, -, rfl⟩ := List.mem_map.mp ha
    exact h.execute c hs
  · obtain ⟨ss, hss, hs⟩ := Activity.mem_interleave (by simp) hm
    simp only [List.map_map, List.mem_map] at hss
    obtain ⟨c, -, rfl⟩ := hss
    exact h.execute c hs

/-- Executions start in the order of their calls, each once. -/
theorem starts_executeAll (h : r.Finishes) (d : Dispatch) (calls : List ToolCall) :
    Step.starts ((ofRegistry r d).executeAll calls).steps = r.known calls := by
  have hall : Step.starts (calls.flatMap fun c => (r.execute c).steps) = r.known calls := by
    rw [Step.starts, List.filterMap_flatMap, ← Registry.flatMap_known]
    exact congrArg (calls.flatMap ·) (funext fun c => Registry.starts_execute r c)
  cases d with
  | sequential =>
      rw [← hall]
      refine congrArg Step.starts ((Activity.steps_inOrder ?_).trans ?_)
      · intro a ha
        obtain ⟨c, -, rfl⟩ := List.mem_map.mp ha
        exact h.execute c
      · rw [List.flatMap_map]
        rfl
  | concurrent =>
      rw [← hall]
      refine (Activity.starts_interleave ?_).trans (congrArg Step.starts ?_)
      · simp only [List.map_map, List.mem_map]
        rintro _ ⟨c, -, rfl⟩
        exact Registry.starts_afterPause_execute r c
      · rw [List.map_map, List.flatMap_def]
        rfl

/-- In either mode a batch does what its calls do one by one, in some order. -/
theorem filterMap_executeAll_perm (h : r.Finishes) (d : Dispatch) {f : Step → Option β}
    (hf : f .pause = none) (calls : List ToolCall) :
    (((ofRegistry r d).executeAll calls).steps.filterMap f).Perm
      ((calls.flatMap fun c => (r.execute c).steps).filterMap f) := by
  cases d with
  | sequential =>
      refine .of_eq (congrArg (List.filterMap f) ((Activity.steps_inOrder ?_).trans ?_))
      · intro a ha
        obtain ⟨c, -, rfl⟩ := List.mem_map.mp ha
        exact h.execute c
      · rw [List.flatMap_map]
        rfl
  | concurrent =>
      refine (Activity.filterMap_interleave_perm hf _).trans (.of_eq ?_)
      rw [List.map_map, List.flatMap_def]
      rfl

/-- Every execution that starts finishes, in whatever order. -/
theorem finishes_executeAll (h : r.Finishes) (d : Dispatch) (calls : List ToolCall) :
    (Step.finishes ((ofRegistry r d).executeAll calls).steps).Perm (r.known calls) := by
  have hall : Step.finishes (calls.flatMap fun c => (r.execute c).steps) = r.known calls := by
    rw [Step.finishes, List.filterMap_flatMap, ← Registry.flatMap_known]
    exact congrArg (calls.flatMap ·) (funext fun c => h.finishes_execute c)
  rw [← hall]
  exact filterMap_executeAll_perm h d rfl calls

/-- What a batch does, but for the pauses. -/
def work (e : Executor) (calls : List ToolCall) : List Step :=
  (e.executeAll calls).steps.filter (· ≠ .pause)

theorem starts_work (h : r.Finishes) (d : Dispatch) (calls : List ToolCall) :
    Step.starts ((ofRegistry r d).work calls) = r.known calls := by
  rw [← starts_executeAll h d calls, work, Step.starts, List.filterMap_filter]
  refine List.filterMap_congr fun s _ => ?_
  cases s <;> rfl

theorem finishes_work (h : r.Finishes) (d : Dispatch) (calls : List ToolCall) :
    (Step.finishes ((ofRegistry r d).work calls)).Perm (r.known calls) := by
  refine (List.Perm.of_eq ?_).trans (finishes_executeAll h d calls)
  rw [work, Step.finishes, List.filterMap_filter]
  refine List.filterMap_congr fun s _ => ?_
  cases s <;> rfl

end Executor

end ChatAgent
