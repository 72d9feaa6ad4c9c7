import ChatAgent.Proofs.Work

/-!
# Whose steps they are

A step that tools take in a run belongs to the execution of a call. The call has been announced
before, and what the tool had to do for it first has been done before (`Agent.owns_of_run`). Waiting
is left out, for it cannot be told who waits.
-/

namespace ChatAgent

variable {α β : Type}

/-! ## Positions -/

/-- What stands somewhere in two lists stands in the first of them, or behind it in the other. -/
theorem split_append {xs ys sofar later : List β} {s : β} (h : xs ++ ys = sofar ++ s :: later) :
    (∃ mid, xs = sofar ++ s :: mid) ∨ ∃ mid, sofar = xs ++ mid ∧ ys = mid ++ s :: later := by
  rcases List.append_eq_append_iff.mp h with ⟨mid, hs, hy⟩ | ⟨mid, hx, hl⟩
  · exact .inr ⟨mid, hs, hy⟩
  · cases mid with
    | nil => exact .inr ⟨[], by simpa using hx.symm, by simpa using hl.symm⟩
    | cons b mid =>
        cases hl
        exact .inl ⟨mid, hx⟩

theorem split_flatMap {f : α → List β} {xs : List α} {sofar later : List β} {s : β}
    (h : xs.flatMap f = sofar ++ s :: later) :
    ∃ x ∈ xs, ∃ own rest, f x = own ++ s :: rest ∧ own ⊆ sofar := by
  induction xs generalizing sofar with
  | nil => simp at h
  | cons x xs ih =>
      rw [List.flatMap_cons] at h
      rcases split_append h with ⟨rest, hx⟩ | ⟨mid, rfl, hrest⟩
      · exact ⟨x, List.mem_cons_self, sofar, rest, hx, List.Subset.refl _⟩
      · obtain ⟨y, hy, own, rest, he, hsub⟩ := ih hrest
        exact ⟨y, List.mem_cons_of_mem _ hy, own, rest, he,
          List.Subset.trans hsub (List.subset_append_right _ _)⟩

/-! ## Batches -/

namespace Activity

theorem steps_inOrder_prefix (as : List (Activity α)) :
    (inOrder as).steps <+: as.flatMap (·.steps) := by
  induction as with
  | nil => exact List.prefix_rfl
  | cons a as ih =>
      rw [inOrder, List.flatMap_cons]
      split
      · exact (List.prefix_append_right_inj _).mpr ih
      · exact List.prefix_append _ _

theorem beforePause_append_afterPause {ss : List Step} (h : afterPause ss ≠ []) :
    beforePause ss ++ .pause :: afterPause ss = ss := by
  induction ss with
  | nil => exact absurd rfl h
  | cons s ss ih =>
      by_cases hs : s = .pause
      · subst hs
        simp [beforePause, afterPause]
      · have hb : beforePause (s :: ss) = s :: beforePause ss := by simp [beforePause, hs]
        have ha : afterPause (s :: ss) = afterPause ss := by simp [afterPause, hs]
        rw [ha] at h
        rw [hb, ha, List.cons_append, ih h]

/-- A step among the rounds of several activities is one of them, and what that one does before is
done before. -/
theorem split_interleave {runs : List (List Step)} {sofar later : List Step} {s : Step}
    (hs : s ≠ .pause) (h : interleave runs = sofar ++ s :: later) :
    ∃ run ∈ runs, ∃ own rest, run = own ++ s :: rest ∧ ∀ x ∈ own, x ≠ .pause → x ∈ sofar := by
  induction runs using interleave.induct generalizing sofar with
  | case1 runs hp ih =>
      rw [interleave, dif_pos hp] at h
      -- the step is taken in this round, before the first pause of its run, or in a later round
      rcases split_append h with ⟨mid, hfirst⟩ | ⟨mid, rfl, hrest⟩
      · obtain ⟨run, hrun, own, rest, he, hsub⟩ := split_flatMap hfirst
        obtain ⟨tail, htail⟩ := List.takeWhile_prefix (l := run) (· ≠ Step.pause)
        refine ⟨run, hrun, own, rest ++ tail, ?_, fun x hx _ => hsub hx⟩
        rw [← htail, ← List.cons_append, ← List.append_assoc, ← he]
        rfl
      · rcases mid with _ | ⟨x, mid⟩
        · exact absurd (List.cons.inj hrest).1.symm hs
        · obtain ⟨rfl, hrest⟩ := List.cons.inj hrest
          have hlater : interleave (runs.map afterPause) = mid ++ s :: later := by
            simpa using hrest
          obtain ⟨_, hmem, own, rest, he, hown⟩ := ih (by simpa using hlater)
          simp only [List.mem_map, List.mem_attach, true_and, Subtype.exists] at hmem
          obtain ⟨run, hrun, rfl⟩ := hmem
          refine ⟨run, hrun, beforePause run ++ .pause :: own, rest, ?_, fun x hx hne => ?_⟩
          · rw [List.append_assoc, List.cons_append, ← he]
            exact (beforePause_append_afterPause (by simp [he])).symm
          · rcases List.mem_append.mp hx with hx | hx
            · exact List.mem_append_left _ (List.mem_flatMap.mpr ⟨run, hrun, hx⟩)
            · rcases List.mem_cons.mp hx with rfl | hx
              · exact absurd rfl hne
              · exact List.mem_append_right _ (List.mem_cons_of_mem _ (hown x hx hne))
  | case2 runs hp =>
      rw [interleave, dif_neg hp, ← List.flatMap_id] at h
      obtain ⟨run, hrun, own, rest, he, hsub⟩ := split_flatMap h
      exact ⟨run, hrun, own, rest, he, fun x hx _ => hsub hx⟩

/-- What an execution does, apart from its marks, is done in it by the activity. -/
theorem split_execution {call : ToolCall} {a : Activity α} {own rest : List Step} {s : Step}
    (hs : s.isMark = false) (h : (a.execution call).steps = own ++ s :: rest) :
    ∃ before after, a.steps = before ++ s :: after ∧ ∀ x ∈ before, x.isMark = false → x ∈ own := by
  rcases own with _ | ⟨x, own⟩
  · cases h
    cases hs
  · rcases split_append (List.cons.inj h).2 with ⟨mid, hmid⟩ | ⟨mid, -, hmid⟩
    · obtain ⟨first, left, hsteps, hfirst, hleft⟩ := List.filter_eq_append_iff.mp hmid
      obtain ⟨marks, after, rfl, hmarks, -, -⟩ := List.filter_eq_cons_iff.mp hleft
      refine ⟨first ++ marks, after, by rw [hsteps, List.append_assoc], fun x hx hm => ?_⟩
      rcases List.mem_append.mp hx with hx | hx
      · exact List.mem_cons_of_mem _ (hfirst ▸ List.mem_filter.mpr ⟨hx, by simp [hm]⟩)
      · exact absurd (by simp [hm]) (hmarks x hx)
    · have hfinish : s ∈ if a.result.isSome then [Step.finish call] else [] := by simp [hmid]
      split at hfinish
      · cases List.mem_singleton.mp hfinish
        cases hs
      · cases hfinish

end Activity

theorem Registry.split_execute {r : Registry} {call : ToolCall} {own rest : List Step} {s : Step}
    (hs : s.isMark = false) (h : (r.execute call).steps = own ++ s :: rest) :
    ∃ t, r.get? call.name = some t ∧ ∃ before after,
      (t.run call.arguments).steps = before ++ s :: after ∧
        ∀ x ∈ before, x.isMark = false → x ∈ own := by
  simp only [execute] at h
  split at h
  · rename_i t ht
    have hmap := Activity.split_execution hs h
    exact ⟨t, ht, hmap⟩
  · simp [Activity.finished] at h

/-- In whichever mode, a step of a batch is one in the execution of a call, and what that execution
does before is done before. -/
theorem Executor.split_executeAll {e : Executor} {calls : List ToolCall} {sofar later : List Step}
    {s : Step} (hs : s ≠ .pause) (h : (e.executeAll calls).steps = sofar ++ s :: later) :
    ∃ call ∈ calls, ∃ own rest, (e.execute call).steps = own ++ s :: rest ∧
      ∀ x ∈ own, x ≠ .pause → x ∈ sofar := by
  simp only [executeAll] at h
  split at h
  · obtain ⟨rest, hrest⟩ := Activity.steps_inOrder_prefix (calls.map e.execute)
    rw [h, List.append_assoc, List.cons_append, List.flatMap_map] at hrest
    obtain ⟨call, hcall, own, rest, he, hsub⟩ := split_flatMap hrest.symm
    exact ⟨call, hcall, own, rest, he, fun x hx _ => hsub hx⟩
  · obtain ⟨_, hrun, own, rest, he, hown⟩ := Activity.split_interleave hs h
    simp only [List.map_map, List.mem_map, Function.comp_apply] at hrun
    obtain ⟨call, hcall, rfl⟩ := hrun
    exact ⟨call, hcall, own, rest, he, hown⟩

/-! ## Runs -/

namespace Action

theorem ofStep_of_ne {s : Step} (h : s ≠ .pause) : ofStep s = step s := by
  cases s with
  | pause => exact absurd rfl h
  | _ => rfl

theorem split_map_ofStep {ss : List Step} {sofar later : List Action} {s : Step}
    (h : ss.map ofStep = sofar ++ step s :: later) :
    ∃ done, s ≠ .pause ∧ ∃ left, ss = done ++ s :: left ∧ sofar = done.map ofStep := by
  obtain ⟨done, rest, rfl, rfl, hrest⟩ := List.map_eq_append_iff.mp h
  obtain ⟨t, left, rfl, ht, -⟩ := List.map_eq_cons_iff.mp hrest
  have hs : t ≠ .pause := by
    rintro rfl
    cases ht
  cases (ofStep_of_ne hs).symm.trans ht
  exact ⟨done, hs, left, rfl, rfl⟩

end Action

/-- The step belongs, after such a history, to a call that has been announced in it, and it has what
comes before the step in the execution of the call. -/
def Executor.Owns (e : Executor) (sofar : List Action) (s : Step) : Prop :=
  ∃ call own rest, .emit (.ofCall call) ∈ sofar ∧ (e.execute call).steps = own ++ s :: rest ∧
    ∀ x ∈ own, x ≠ .pause → .step x ∈ sofar

/-- Steps that are taken right after their calls have been announced are owned. -/
theorem Executor.owns_of_batch {e : Executor} (calls : List ToolCall) (before after : List Action)
    {sofar later : List Action} {s : Step} (hbefore : Action.steps before = [])
    (hafter : Action.steps after = [])
    (h : before ++ (Action.emits (calls.map .ofCall) ++
        .heed :: ((e.executeAll calls).steps.map .ofStep ++ after)) = sofar ++ .step s :: later) :
    e.Owns sofar s := by
  have hnone {as : List Action} (has : Action.steps as = []) : .step s ∉ as := by
    rw [← Action.mem_steps, has]
    exact List.not_mem_nil
  obtain ⟨_, rfl, htold⟩ := Action.split_after h (hnone hbefore)
  obtain ⟨_, rfl, hlooked⟩ := Action.split_after htold (hnone (Action.steps_emits _))
  rw [← List.singleton_append] at hlooked
  obtain ⟨_, rfl, hwork⟩ := Action.split_after hlooked (by simp)
  obtain ⟨_, hbatch, -⟩ := Action.split_before hwork (hnone hafter)
  obtain ⟨done, hs, left, hsteps, rfl⟩ := Action.split_map_ofStep hbatch
  obtain ⟨call, hcall, own, rest, he, hown⟩ := split_executeAll hs hsteps
  refine ⟨call, own, rest, ?_, he, fun x hx hne => ?_⟩
  · have hannounced : .emit (.ofCall call) ∈ Action.emits (calls.map .ofCall) :=
      List.mem_map_of_mem (List.mem_map_of_mem hcall)
    simp [hannounced]
  · have hdone : .step x ∈ done.map Action.ofStep :=
      Action.ofStep_of_ne hne ▸ List.mem_map_of_mem (hown x hx hne)
    simp [hdone]

namespace Agent

/-- The step belongs, after such a history, to a call of the turn that was asked for last, and it is
the executor of this turn that has taken it. Requests are counted from `count` on. -/
def Owns (a : Agent) (count : Nat) (sofar : List Action) (s : Step) : Prop :=
  ∃ before q during, sofar = before ++ .ask q :: during ∧ Action.requests during = [] ∧
    (a.executor (count + (Action.requests before).length)).Owns during s

variable {a : Agent} {count : Nat} {sofar later : List Action} {s : Step}

/-- Steps that are taken in a turn are owned. -/
theorem owns_of_turn (model : String) (messages : Conversation) (after : List Action)
    (hsteps : Action.steps after = []) (hrequests : Action.requests after = [])
    (h : .heed :: .ask (a.asked model messages) ::
        (Action.emits ((a.answer model count messages).deltas.map .content) ++
          (Action.emits ((a.answer model count messages).calls.map .ofCall) ++ .heed ::
            (((a.executor count).executeAll (a.answer model count messages).calls).steps.map
              .ofStep ++ after))) = sofar ++ .step s :: later) :
    a.Owns count sofar s := by
  rcases sofar with _ | ⟨_, _ | ⟨_, during⟩⟩
  · cases h
  · cases h
  · simp only [List.cons_append, List.cons.injEq] at h
    obtain ⟨rfl, rfl, hbody⟩ := h
    have hnone : Action.requests during = [] ∧ Action.requests later = [] := by
      simpa [hrequests] using congrArg Action.requests hbody
    exact ⟨[.heed], _, during, rfl, hnone.1,
      Executor.owns_of_batch _ _ after (Action.steps_emits _) hsteps hbody⟩

theorem Course.owns {model : String} {left count : Nat} {messages : Conversation}
    {rounds : List Round} {close : Close} (h : Course a model left count messages rounds close)
    (hs : rounds.flatMap Round.actions ++ close.actions = sofar ++ .step s :: later) :
    a.Owns count sofar s := by
  induction h generalizing sofar with
  | capped | completed | failed | silent =>
      have hm := congrArg Action.steps hs
      simp [Close.actions] at hm
  | @stuck _ count messages =>
      refine owns_of_turn model messages [] rfl rfl (.trans ?_ hs)
      simp [Close.actions, Close.events, Action.emits]
  | @round _ count messages _ results _ _ ho hc hr rest ih =>
      rw [List.flatMap_cons, List.append_assoc] at hs
      rcases split_append hs with ⟨mid, hround⟩ | ⟨mid, rfl, hrest⟩
      · refine owns_of_turn model messages (Action.emits (results.map .ofResult))
          (Action.steps_emits _) (Action.requests_emits _) (.trans ?_ hround)
        simp [Round.actions, Round.body, Round.work, roundOf]
      · obtain ⟨before, q, during, rfl, hnone, howns⟩ := ih hrest
        refine ⟨_ ++ before, q, during, (List.append_assoc ..).symm, hnone, ?_⟩
        rwa [Action.requests_append, Round.requests_actions, List.length_append,
          List.length_singleton, ← Nat.add_assoc]

/-- Whoever listens: a step that is taken belongs to a call of the turn that was asked for last, and
what comes before it in the execution of the call has been done before in this turn. -/
theorem owns_of_run (a : Agent) (request : ChatRequest) (l : Listener)
    (h : ((a.run request).watch l []).1 = sofar ++ .step s :: later) : a.Owns 0 sofar s := by
  obtain ⟨rest, hrest⟩ := Process.watch_prefix l (a.run request) []
  rw [h, List.nil_append, List.append_assoc, List.cons_append] at hrest
  rcases a.run_cases request with hrun | ⟨rounds, close, hcourse, hactions, -⟩
  · rw [hrun] at hrest
    simp at hrest
  · rw [hactions] at hrest
    exact hcourse.owns hrest.symm

end Agent

end ChatAgent
