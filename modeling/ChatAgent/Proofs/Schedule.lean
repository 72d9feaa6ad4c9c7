import ChatAgent.Proofs.Dispatch
import Mathlib.Algebra.Order.BigOperators.Group.List
import Mathlib.Algebra.Order.Ring.Nat

/-!
# The schedule of a batch

A batch has one result for each call, in order, which is what the call has to result in. One after
the other, each execution is over before the next one starts. All at once, every execution starts in
the first round and is over in the round after its last pause; within a round the calls keep their
order (`Executor.executeAll_schedule`).
-/

namespace ChatAgent

variable {α β : Type}

/-! ## Rounds -/

namespace Activity

/-- What is done in a round, up to the pause that ends it. -/
def round : Nat → List Step → List Step
  | 0, steps => beforePause steps
  | n + 1, steps => round n (afterPause steps)

theorem round_nil (n : Nat) : round n [] = [] := by
  induction n with
  | zero => rfl
  | succ n ih => exact ih

theorem round_pause (n : Nat) (steps : List Step) :
    round n (.pause :: steps) = if n = 0 then [] else round (n - 1) steps := by
  cases n with
  | zero => simp [round, beforePause]
  | succ n => simp [round, afterPause]

theorem round_cons {s : Step} (hs : s ≠ .pause) (n : Nat) (steps : List Step) :
    round n (s :: steps) = (if n = 0 then [s] else []) ++ round n steps := by
  cases n with
  | zero => simp [round, beforePause, hs]
  | succ n =>
      have hafter : afterPause (s :: steps) = afterPause steps := by simp [afterPause, hs]
      rw [round, round, hafter, if_neg (Nat.succ_ne_zero n), List.nil_append]

theorem count_pause_afterPause (steps : List Step) :
    (afterPause steps).count .pause = steps.count .pause - 1 := by
  induction steps with
  | nil => rfl
  | cons s steps ih =>
      by_cases hs : s = .pause
      · subst hs
        simp [afterPause]
      · have hafter : afterPause (s :: steps) = afterPause steps := by simp [afterPause, hs]
        rw [hafter, ih, List.count_cons_of_ne hs]

theorem round_of_count {steps : List Step} (h : steps.count .pause = 0) (n : Nat) :
    round n steps = if n = 0 then steps else [] := by
  induction steps with
  | nil => simp [round_nil]
  | cons s steps ih =>
      have hs : s ≠ .pause := by
        rintro rfl
        simp at h
      rw [List.count_cons_of_ne hs] at h
      rw [round_cons hs, ih h]
      split <;> rfl

theorem flatMap_round_of_count {f : Step → Option β} {runs : List (List Step)}
    (h : ∀ r ∈ runs, r.count .pause = 0) (n : Nat) :
    (runs.flatMap fun r => (round n r).filterMap f) =
      if n = 0 then runs.flatten.filterMap f else [] := by
  rw [List.flatMap_congr fun r hr => by rw [round_of_count (h r hr) n]]
  split
  · rw [List.filterMap_flatten, List.flatMap_def]
  · simp

/-- Round after round, the activities take their steps in order. -/
theorem filterMap_interleave {f : Step → Option β} (hf : f .pause = none) {n : Nat}
    {runs : List (List Step)} (hn : ∀ r ∈ runs, r.count .pause < n) :
    (interleave runs).filterMap f =
      (List.range n).flatMap fun i => runs.flatMap fun r => (round i r).filterMap f := by
  induction n generalizing runs with
  | zero =>
      obtain rfl : runs = [] :=
        List.eq_nil_iff_forall_not_mem.mpr fun r hr => Nat.not_lt_zero _ (hn r hr)
      simp [interleave]
  | succ n ih =>
      rw [List.range_succ_eq_map, List.flatMap_cons, List.flatMap_map, interleave]
      by_cases hp : ∃ r ∈ runs, .pause ∈ r
      · have hlater : ∀ r ∈ runs.map afterPause, r.count .pause < n := by
          obtain ⟨r, hr, hpause⟩ := hp
          have hpos := List.count_pos_iff.mpr hpause
          have hbound := hn r hr
          simp only [List.mem_map, forall_exists_index, and_imp, forall_apply_eq_imp_iff₂,
            count_pause_afterPause]
          intro q hq
          have := hn q hq
          omega
        rw [dif_pos hp, List.filterMap_append, List.filterMap_cons_none hf, List.filterMap_flatMap,
          ih hlater]
        simp only [List.flatMap_map]
        rfl
      · have hnone : ∀ r ∈ runs, r.count .pause = 0 := fun r hr =>
          List.count_eq_zero.mpr fun hpause => hp ⟨r, hr, hpause⟩
        rw [dif_neg hp]
        simp only [flatMap_round_of_count hnone]
        simp

/-! ## Marks -/

/-- The end of an execution comes in the round after its last pause. -/
theorem filter_round_finish (call : ToolCall) {steps : List Step}
    (h : ∀ s ∈ steps, s.isMark = false) (n : Nat) :
    (round n (steps ++ [.finish call])).filter Step.isMark =
      if steps.count .pause = n then [.finish call] else [] := by
  induction steps generalizing n with
  | nil =>
      rw [List.nil_append, round_of_count rfl, List.count_nil]
      cases n <;> rfl
  | cons s steps ih =>
      have ih := ih fun t ht => h t (List.mem_cons_of_mem s ht)
      rw [List.cons_append]
      by_cases hp : s = .pause
      · subst hp
        rw [round_pause, List.count_cons_self]
        cases n with
        | zero => rw [if_pos rfl, if_neg (by omega), List.filter_nil]
        | succ n => rw [if_neg n.succ_ne_zero, Nat.add_sub_cancel, ih n]; simp
      · have hfirst : (if n = 0 then [s] else []).filter Step.isMark = [] := by
          split <;> simp [h s List.mem_cons_self]
        rw [round_cons hp, List.filter_append, hfirst, List.nil_append, ih n,
          List.count_cons_of_ne hp]

theorem count_unmarked (steps : List Step) :
    (steps.filter (!·.isMark)).count .pause = steps.count .pause :=
  List.count_filter rfl

theorem filter_round_execution {call : ToolCall} {a : Activity α} (h : a.result.isSome) (n : Nat) :
    (round n (a.execution call).steps).filter Step.isMark =
      (if n = 0 then [.start call] else []) ++
        if a.steps.count .pause = n then [.finish call] else [] := by
  have hown : ∀ s ∈ a.steps.filter (!·.isMark), s.isMark = false := fun s hs => by
    simpa using (List.mem_filter.mp hs).2
  have hsteps : (a.execution call).steps =
      .start call :: (a.steps.filter (!·.isMark) ++ [.finish call]) := by
    rw [execution, if_pos h]
  rw [hsteps, round_cons (by simp), List.filter_append, filter_round_finish call hown,
    count_unmarked]
  congr 1
  split <;> rfl

theorem filter_execution {call : ToolCall} {a : Activity α} (h : a.result.isSome) :
    (a.execution call).steps.filter Step.isMark = [.start call, .finish call] := by
  have hown : (a.steps.filter (!·.isMark)).filter Step.isMark = [] := by simp
  rw [execution, if_pos h, List.filter_cons_of_pos rfl, List.filter_append, hown]
  rfl

theorem count_pause_execution (call : ToolCall) (a : Activity α) :
    (a.execution call).steps.count .pause = a.steps.count .pause := by
  rw [execution, List.count_cons_of_ne (by simp), List.count_append, count_unmarked]
  split <;> rfl

end Activity

/-! ## Rounds of marks -/

/-- Where an execution starts or has finished, and which one. -/
inductive Mark (α : Type) where
  | start (a : α)
  | finish (a : α)
  deriving DecidableEq

namespace Mark

def started? : Mark α → Option α
  | start a => some a
  | finish _ => none

def finished? : Mark α → Option α
  | start _ => none
  | finish a => some a

def step : Mark (ToolCall × Nat) → Step
  | start (call, _) => .start call
  | finish (call, _) => .finish call

/-- What marks an execution that pauses so many times, in one round. -/
def inRound (n pauses : Nat) (a : α) : List (Mark α) :=
  (if n = 0 then [start a] else []) ++ if pauses = n then [finish a] else []

/-- What marks the executions in so many rounds. -/
def rounds (pauses : α → Nat) (as : List α) (n : Nat) : List (Mark α) :=
  (List.range n).flatMap fun i => as.flatMap fun a => inRound i (pauses a) a

variable {pauses : α → Nat} {as : List α} {n : Nat}

theorem starts_rounds : (rounds pauses as (n + 1)).filterMap started? = as := by
  have hround (i : Nat) (a : α) :
      (inRound i (pauses a) a).filterMap started? = if i = 0 then [a] else [] := by
    unfold inRound
    split <;> split <;> rfl
  simp only [rounds, List.filterMap_flatMap, hround]
  rw [List.range_succ_eq_map, List.flatMap_cons, List.flatMap_map]
  simp

theorem finishes_rounds : (rounds pauses as n).filterMap finished? =
    (List.range n).flatMap fun i => as.filter (pauses · = i) := by
  have hround (i : Nat) (a : α) :
      (inRound i (pauses a) a).filterMap finished? = if pauses a = i then [a] else [] := by
    unfold inRound
    split <;> split <;> rfl
  have hfilter (i : Nat) :
      (as.flatMap fun a => if pauses a = i then [a] else []) = as.filter (pauses · = i) := by
    induction as with
    | nil => rfl
    | cons a as ih => by_cases ha : pauses a = i <;> simp [ha, ih]
  simp only [rounds, List.filterMap_flatMap, hround, hfilter]

theorem filter_rounds_perm (n : Nat) :
    ((List.range n).flatMap fun i => as.filter (pauses · = i)).Perm (as.filter (pauses · < n)) := by
  induction n with
  | zero => simp
  | succ n ih =>
      have hbefore : as.filter (pauses · < n) =
          (as.filter (pauses · < n + 1)).filter (pauses · < n) := by
        rw [List.filter_filter]
        exact List.filter_congr fun a _ => by grind
      have hlast : as.filter (pauses · = n) =
          (as.filter (pauses · < n + 1)).filter (! pauses · < n) := by
        rw [List.filter_filter]
        exact List.filter_congr fun a _ => by grind
      rw [List.range_succ, List.flatMap_append, List.flatMap_singleton, hlast]
      refine (ih.append_right _).trans ?_
      rw [hbefore]
      exact List.filter_append_perm _ _

/-- Every execution that starts is over after so many rounds. -/
theorem finishes_rounds_perm (hn : ∀ a ∈ as, pauses a < n) :
    ((rounds pauses as n).filterMap finished?).Perm as := by
  rw [finishes_rounds]
  refine (filter_rounds_perm n).trans (.of_eq ?_)
  exact List.filter_eq_self.mpr fun a ha => decide_eq_true (hn a ha)

/-- The executions are over in the order of their pauses, and of those with as many pauses in the
order in which they start. -/
theorem finishes_rounds_pairwise {r : α → α → Prop} (has : as.Pairwise r) (n : Nat) :
    ((rounds pauses as n).filterMap finished?).Pairwise
      (fun a b => pauses a < pauses b ∨ pauses a = pauses b ∧ r a b) := by
  rw [finishes_rounds, List.pairwise_flatMap]
  constructor
  · intro i _
    refine (has.filter _).imp_of_mem ?_
    intro a b ha hb hr
    have ha := of_decide_eq_true (List.mem_filter.mp ha).2
    have hb := of_decide_eq_true (List.mem_filter.mp hb).2
    exact .inr ⟨ha.trans hb.symm, hr⟩
  · refine List.pairwise_lt_range.imp ?_
    intro i j hij a ha b hb
    have ha := of_decide_eq_true (List.mem_filter.mp ha).2
    have hb := of_decide_eq_true (List.mem_filter.mp hb).2
    exact .inl (by omega)

theorem start_finish_sublist {a : α} (ha : a ∈ as) (hn : pauses a < n) :
    [start a, finish a].Sublist (rounds pauses as n) := by
  obtain ⟨k, rfl⟩ := Nat.exists_eq_add_of_lt hn
  have hfinish : finish a ∈ inRound (pauses a) (pauses a) a := by simp [inRound]
  rw [rounds, Nat.add_assoc, List.range_add, List.flatMap_append, List.flatMap_map]
  rcases Nat.eq_zero_or_pos (pauses a) with hzero | hpos
  · -- both marks stand side by side in the first round
    have hround : [start a, finish a].Sublist (as.flatMap fun b => inRound 0 (pauses b) b) := by
      rw [List.flatMap_def]
      refine List.sublist_flatten_of_mem (List.mem_map.mpr ⟨a, ha, ?_⟩)
      rw [hzero]
      rfl
    rw [hzero, List.range_succ_eq_map, List.flatMap_cons]
    exact (hround.trans (List.sublist_append_left _ _)).trans (List.sublist_append_right _ _)
  · show ([start a] ++ [finish a]).Sublist _
    refine (List.singleton_sublist.mpr ?_).append (List.singleton_sublist.mpr ?_)
    · exact List.mem_flatMap.mpr ⟨0, List.mem_range.mpr hpos,
        List.mem_flatMap.mpr ⟨a, ha, by simp [inRound]⟩⟩
    · exact List.mem_flatMap.mpr ⟨0, List.mem_range.mpr k.succ_pos,
        List.mem_flatMap.mpr ⟨a, ha, hfinish⟩⟩

end Mark

/-! ## The batch of a registry -/

namespace Registry

variable {r : Registry} {call : ToolCall} {calls : List ToolCall}

/-- What a call has to result in. -/
inductive Answers (r : Registry) (call : ToolCall) : ToolResult → Prop
  | unknown (h : r.get? call.name = none) :
      Answers r call (.failure call.id ("unknown tool: " ++ call.name))
  | ran {t : Tool} {o : Outcome} (h : r.get? call.name = some t)
      (ho : (t.run call.arguments).result = some o) : Answers r call (o.toResult call.id)

/-- The tool of a call finishes, if there is one. -/
def FinishesOn (r : Registry) (call : ToolCall) : Prop :=
  ∀ t ∈ r.get? call.name, (t.run call.arguments).result.isSome

/-- How often the tool of a call pauses. -/
def pauses (r : Registry) (call : ToolCall) : Nat :=
  match r.get? call.name with
  | some t => (t.run call.arguments).steps.count .pause
  | none => 0

/-- The calls whose tools are registered, with their positions. -/
def placed (r : Registry) (calls : List ToolCall) : List (ToolCall × Nat) :=
  calls.zipIdx.filter (r.contains ·.1.name)

section

variable {t : Tool}

theorem execute_known (h : r.get? call.name = some t) :
    r.execute call = ((t.run call.arguments).map (·.toResult call.id)).execution call := by
  rw [execute, h]

theorem execute_unknown (h : r.get? call.name = none) :
    r.execute call = .finished (.failure call.id ("unknown tool: " ++ call.name)) := by
  rw [execute, h]

theorem pauses_known (h : r.get? call.name = some t) :
    r.pauses call = (t.run call.arguments).steps.count .pause := by
  rw [pauses, h]

theorem contains_known (h : r.get? call.name = some t) : r.contains call.name = true := by
  rw [contains, h, Option.isSome_some]

theorem contains_unknown (h : r.get? call.name = none) : ¬ r.contains call.name = true := by
  rw [contains, h, Option.isSome_none]
  exact Bool.false_ne_true

end

theorem answers_of_execute {x : ToolResult} (h : (r.execute call).result = some x) :
    r.Answers call x := by
  cases ht : r.get? call.name with
  | none =>
      rw [execute_unknown ht] at h
      cases h
      exact .unknown ht
  | some t =>
      rw [execute_known ht] at h
      obtain ⟨o, ho, rfl⟩ := Option.map_eq_some_iff.mp h
      exact .ran ht ho

theorem count_pause_execute (r : Registry) (call : ToolCall) :
    (r.execute call).steps.count .pause = r.pauses call := by
  cases ht : r.get? call.name with
  | none =>
      rw [execute_unknown ht, pauses, ht]
      rfl
  | some t =>
      rw [execute_known ht, pauses_known ht]
      exact Activity.count_pause_execution _ _

namespace FinishesOn

variable (h : r.FinishesOn call)

include h

theorem isSome_execute : (r.execute call).result.isSome := by
  cases ht : r.get? call.name with
  | none =>
      rw [execute_unknown ht]
      rfl
  | some t =>
      rw [execute_known ht]
      exact Option.isSome_map.trans (h t ht)

theorem filter_round_execute (n : Nat) :
    (Activity.round n (r.execute call).steps).filter Step.isMark =
      if r.contains call.name then
        (if n = 0 then [.start call] else []) ++ if r.pauses call = n then [.finish call] else []
      else [] := by
  cases ht : r.get? call.name with
  | none =>
      rw [execute_unknown ht, if_neg (contains_unknown ht)]
      exact congrArg (List.filter Step.isMark) (Activity.round_nil n)
  | some t =>
      rw [execute_known ht, if_pos (contains_known ht), pauses_known ht,
        Activity.filter_round_execution (Option.isSome_map.trans (h t ht))]
      rfl

theorem filter_execute :
    (r.execute call).steps.filter Step.isMark =
      if r.contains call.name then [.start call, .finish call] else [] := by
  cases ht : r.get? call.name with
  | none =>
      rw [execute_unknown ht, if_neg (contains_unknown ht)]
      rfl
  | some t =>
      rw [execute_known ht, if_pos (contains_known ht),
        Activity.filter_execution (Option.isSome_map.trans (h t ht))]

end FinishesOn

theorem flatMap_placed (r : Registry) (g : ToolCall → List β) (calls : List ToolCall) :
    ((r.placed calls).flatMap fun p => g p.1) =
      calls.flatMap fun c => if r.contains c.name then g c else [] := by
  have hfilter (ps : List (ToolCall × Nat)) :
      ((ps.filter (r.contains ·.1.name)).flatMap fun p => g p.1) =
        (ps.map (·.1)).flatMap fun c => if r.contains c.name then g c else [] := by
    induction ps with
    | nil => rfl
    | cons p ps ih => by_cases hp : r.contains p.1.name <;> simp [hp, ih]
  rw [placed, hfilter, List.zipIdx_map_fst]

theorem placed_pairwise (r : Registry) (calls : List ToolCall) :
    (r.placed calls).Pairwise fun p q => p.2 < q.2 := by
  have hall : (calls.zipIdx.map (·.2)).Pairwise (· < ·) := by
    rw [List.zipIdx_map_snd]
    exact List.pairwise_lt_range'
  exact (List.pairwise_map.mp hall).filter _

end Registry

namespace Executor

variable {r : Registry} {calls : List ToolCall}

theorem exists_answers (h : ∀ c ∈ calls, r.FinishesOn c) (d : Dispatch) :
    ∃ results, ((ofRegistry r d).executeAll calls).result = some results ∧
      List.Forall₂ (fun c x => r.Answers c x ∧ x.callId = c.id) calls results := by
  rw [result_executeAll]
  induction calls with
  | nil => exact ⟨[], rfl, .nil⟩
  | cons c calls ih =>
      obtain ⟨x, hx⟩ := Option.isSome_iff_exists.mp (h c List.mem_cons_self).isSome_execute
      obtain ⟨xs, hxs, hanswers⟩ := ih fun c' hc' => h c' (List.mem_cons_of_mem c hc')
      have hanswer := And.intro (Registry.answers_of_execute hx) (Registry.callId_of_execute hx)
      refine ⟨x :: xs, ?_, .cons hanswer hanswers⟩
      simp only [ofRegistry] at hxs ⊢
      simp [List.mapM_cons, hx, hxs]

theorem marks_sequential (h : ∀ c ∈ calls, r.FinishesOn c) :
    ((ofRegistry r .sequential).executeAll calls).steps.filter Step.isMark =
      (r.placed calls).flatMap fun p => [.start p.1, .finish p.1] := by
  have hsome : ∀ a ∈ calls.map r.execute, a.result.isSome := by
    intro a ha
    obtain ⟨c, hc, rfl⟩ := List.mem_map.mp ha
    exact (h c hc).isSome_execute
  have hsteps : ((ofRegistry r .sequential).executeAll calls).steps =
      calls.flatMap fun c => (r.execute c).steps :=
    (Activity.steps_inOrder hsome).trans (List.flatMap_map ..)
  rw [hsteps, List.filter_flatMap, r.flatMap_placed fun c => [Step.start c, Step.finish c]]
  exact List.flatMap_congr fun c hc => (h c hc).filter_execute

theorem marks_concurrent (h : ∀ c ∈ calls, r.FinishesOn c) {n : Nat}
    (hn : ∀ c ∈ calls, r.pauses c < n) :
    ((ofRegistry r .concurrent).executeAll calls).steps.filter Step.isMark =
      (Mark.rounds (fun p => r.pauses p.1) (r.placed calls) n).map Mark.step := by
  have hcount : ∀ steps ∈ (calls.map r.execute).map (·.steps), steps.count .pause < n := by
    intro steps hsteps
    rw [List.map_map] at hsteps
    obtain ⟨c, hc, rfl⟩ := List.mem_map.mp hsteps
    exact (r.count_pause_execute c).trans_lt (hn c hc)
  have hmarks (i : Nat) (p : ToolCall × Nat) :
      (Mark.inRound i (r.pauses p.1) p).map Mark.step =
        (if i = 0 then [.start p.1] else []) ++ if r.pauses p.1 = i then [.finish p.1] else [] := by
    unfold Mark.inRound
    split <;> split <;> rfl
  have hrounds := Activity.filterMap_interleave (f := Option.guard (·.isMark)) rfl hcount
  simp only [List.filterMap_eq_filter, List.flatMap_map] at hrounds
  refine Eq.trans hrounds ?_
  simp only [Mark.rounds, List.map_flatMap, hmarks]
  refine List.flatMap_congr fun i _ => ?_
  rw [r.flatMap_placed fun c =>
    (if i = 0 then [Step.start c] else []) ++ if r.pauses c = i then [Step.finish c] else []]
  exact List.flatMap_congr fun c hc => (h c hc).filter_round_execute i

/-- A batch in which every tool finishes has one result for each call, in order: what the tool made
of its arguments, or that there is no such tool. One after the other, every execution is over before
the next one starts. All at once, they start in the order of their calls, each before it is over,
and they are over in the order of their pauses, and of their calls where these are as many. -/
theorem executeAll_schedule (h : ∀ c ∈ calls, r.FinishesOn c) :
    let batch d := (ofRegistry r d).executeAll calls
    let placed := r.placed calls
    (∀ d, ∃ results, (batch d).result = some results ∧
      List.Forall₂ (fun c x => r.Answers c x ∧ x.callId = c.id) calls results) ∧
    (batch .sequential).steps.filter Step.isMark =
      placed.flatMap (fun p => [.start p.1, .finish p.1]) ∧
    ∃ marks : List (Mark (ToolCall × Nat)),
      (batch .concurrent).steps.filter Step.isMark = marks.map Mark.step ∧
      marks.filterMap Mark.started? = placed ∧
      (marks.filterMap Mark.finished?).Perm placed ∧
      (marks.filterMap Mark.finished?).Pairwise (fun p q => r.pauses p.1 < r.pauses q.1 ∨
        r.pauses p.1 = r.pauses q.1 ∧ p.2 < q.2) ∧
      ∀ p ∈ placed, [.start p, .finish p].Sublist marks := by
  intro batch placed
  refine ⟨exists_answers h, marks_sequential h, ?_⟩
  obtain ⟨n, hn⟩ : ∃ n, ∀ c ∈ calls, r.pauses c < n + 1 := by
    refine ⟨(calls.map r.pauses).sum, fun c hc => Nat.lt_succ_of_le ?_⟩
    exact List.single_le_sum (fun _ _ => Nat.zero_le _) _ (List.mem_map_of_mem hc)
  have hplaced : ∀ p ∈ placed, r.pauses p.1 < n + 1 := fun p hp =>
    hn p.1 (List.fst_mem_of_mem_zipIdx (List.mem_filter.mp hp).1)
  exact ⟨_, marks_concurrent h hn, Mark.starts_rounds, Mark.finishes_rounds_perm hplaced,
    Mark.finishes_rounds_pairwise (r.placed_pairwise calls) _,
    fun p hp => Mark.start_finish_sublist hp (hplaced p hp)⟩

/-- The same call twice, and one for which there is no tool. -/
theorem executeAll_schedule_uneven :
    let call name : ToolCall := ⟨"call", name, .empty⟩
    let calls := [call "slow", call "none", call "quick", call "slow"]
    let batch d := (ofRegistry .uneven d).executeAll calls
    (∀ d, ∃ results, (batch d).result = some results ∧
      List.Forall₂ (fun c x => Registry.uneven.Answers c x ∧ x.callId = c.id) calls results) ∧
    (batch .concurrent).steps.filter Step.isMark =
      [.start (call "slow"), .start (call "quick"), .finish (call "quick"), .start (call "slow"),
        .finish (call "slow"), .finish (call "slow")] := by
  intro call calls batch
  have huneven : Registry.uneven.Finishes := Registry.finishes_ofList (by simp [Tool.waiting])
  have hfinishes : ∀ c ∈ calls, Registry.uneven.FinishesOn c :=
    fun c _ t ht => huneven _ t ht c.arguments
  exact ⟨(executeAll_schedule hfinishes).1, by decide +kernel⟩

end Executor

end ChatAgent
