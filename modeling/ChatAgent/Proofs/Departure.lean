import ChatAgent.Proofs.Course

/-!
# Clients that go away

A client may go away once it has taken so many events, or just take no more. Either way it has been
told a beginning of what it would have been told otherwise, and a run that is cut short in this way
counts as cancelled (`Agent.follow_of_stays`).
-/

namespace ChatAgent

variable {α : Type}

/-! ## Clients that stay for some events -/

/-- The client takes so many events and then goes away, or just takes no more. -/
inductive Client.StaysFor (n : Nat) : Client → Prop
  | leaves (audible : Bool) : StaysFor n ⟨some n, none, audible⟩
  | refuses (audible : Bool) : StaysFor n ⟨none, some n, audible⟩

/-- A listener who takes so many events as long as a process lasts, and is gone only after them. -/
structure Listener.StaysFor (l : Listener) (n : Nat) (as : List Action) : Prop where
  takes : ∀ h, h <+: as → (l.takes h ↔ (Action.events h).length < n)
  gone : ∀ h, h <+: as → l.gone h = true → n ≤ (Action.events h).length

theorem Client.StaysFor.listener {n : Nat} {c : Client} (hc : c.StaysFor n) {as : List Action}
    (hd : .step .dismiss ∉ as) : c.listener.StaysFor n as := by
  have hgone (h : List Action) (hp : h <+: as) :
      c.gone (.ofHistory h) = c.leavesAfter.any (· ≤ (Action.events h).length) :=
    c.gone_ofHistory fun hm => hd (hp.subset hm)
  constructor
  · intro h hp
    rw [takes_listener, Client.takes, hgone h hp]
    cases hc with
    | leaves => simp
    | refuses =>
        change (!decide (n ≤ (Action.events h).length)) ↔ _
        simp
  · intro h hp hg
    rw [gone_listener, Client.heard, hgone h hp] at hg
    cases hc with
    | leaves =>
        simp only [Option.any_some, Bool.and_eq_true, decide_eq_true_eq] at hg
        exact hg.2
    | refuses => simp at hg

/-! ## Being cut short -/

namespace Process

/-- After every look at the client there is an event, unless the process ends cancelled anyway. -/
def Attentive (p : Process α) : Prop :=
  p.ending = .failed .cancelled ∨ ∀ as, .heed :: as <:+ p.actions → Action.events as ≠ []

theorem Attentive.next {a : Action} {next : Unit → Process α} (h : (act a next).Attentive) :
    (next ()).Attentive :=
  h.imp_right fun hs as hsuf => hs as (hsuf.trans (List.suffix_cons ..))

/-- What comes, after a history, of a process of which only so many events are taken in all. -/
structure CutAt (n : Nat) (p : Process α) (h : List Action) (r : List Action × Ending α) :
    Prop where
  events_eq : Action.events r.1 = (Action.events (h ++ p.actions)).take n
  ending_eq : r.2 =
    if n < (Action.events (h ++ p.actions)).length then .failed .cancelled else p.ending

theorem CutAt.uncut {n : Nat} {p : Process α} {h : List Action} (hp : p.actions = [])
    (hn : (Action.events h).length ≤ n) : p.CutAt n h (h, p.ending) := by
  constructor
  · rw [hp, List.append_nil, List.take_of_length_le hn]
  · rw [hp, List.append_nil, if_neg (Nat.not_lt.mpr hn)]

/-- A process may be cut once all the events that are taken have happened. -/
theorem CutAt.cut {n : Nat} {p : Process α} {h : List Action} (hn : (Action.events h).length = n)
    (hmore : p.ending = .failed .cancelled ∨ Action.events p.actions ≠ []) :
    p.CutAt n h (h, .failed .cancelled) := by
  subst hn
  constructor
  · rw [Action.events_append, List.take_left]
  · rcases hmore with hc | hne
    · rw [hc, ite_self]
    · have hpos := List.length_pos_iff.mpr hne
      rw [Action.events_append, List.length_append, if_pos (by omega)]

theorem CutAt.act {n : Nat} {a : Action} {next : Unit → Process α} {h : List Action}
    {r : List Action × Ending α} (hr : (next ()).CutAt n (h ++ [a]) r) :
    (Process.act a next).CutAt n h r := by
  constructor
  · rw [hr.events_eq, List.append_assoc]
    rfl
  · rw [hr.ending_eq, List.append_assoc]
    rfl

/-- Whoever takes only so many events cuts a process there. -/
theorem watch_of_stays {l : Listener} {n : Nat} {p : Process α} {h : List Action}
    (hl : l.StaysFor n (h ++ p.actions)) (hn : (Action.events h).length ≤ n) (hp : p.Attentive)
    (he : p.ending ≠ .hung) : p.CutAt n h (p.watch l h) := by
  induction p generalizing h with
  | done a => exact .uncut rfl hn
  | fail f => exact .uncut rfl hn
  | hang => exact absurd rfl he
  | act a next ih =>
      have hgo (hn : (Action.events (h ++ [a])).length ≤ n) :
          (act a next).CutAt n h ((next ()).watch l (h ++ [a])) :=
        .act (ih () (by rwa [List.append_assoc]) hn hp.next he)
      cases a with
      | emit e =>
          have ht := hl.takes h (List.prefix_append ..)
          simp only [watch]
          split
          · rename_i htakes
            rw [ht] at htakes
            exact hgo (by simp; omega)
          · rename_i htakes
            rw [ht] at htakes
            exact .cut (by omega) (.inr (by simp))
      | heed =>
          simp only [watch]
          split
          · rename_i hg
            have hle := hl.gone h (List.prefix_append ..) hg
            refine .cut (by omega) (hp.imp_right fun hs => ?_)
            simpa using hs _ List.suffix_rfl
          · exact hgo (by simpa using hn)
      | ask r => exact hgo (by simpa using hn)
      | step s => exact hgo (by simpa using hn)

end Process

/-! ## Runs that are cut short -/

/-- A run that is not cancelled and comes to an end says so last. -/
theorem Close.exists_done_last {c : Close} (hh : c.ending ≠ .hung)
    (hc : c.ending ≠ .failed .cancelled) :
    ∃ as reason, c.actions = as ++ [.emit (.done reason)] := by
  cases c with
  | capped o => exact ⟨[], _, rfl⟩
  | completed q deltas o =>
      refine ⟨.heed :: .ask q :: Action.emits (deltas.map .content), none, ?_⟩
      rw [actions, events, Action.emits_append]
      rfl
  | failed q deltas f =>
      refine ⟨.heed :: .ask q :: Action.emits (deltas.map .content ++ [.error f.message]), none, ?_⟩
      rw [actions, events_failed fun h => hc (congrArg _ h), Action.emits_append,
        Action.emits_append, List.cons_append, List.cons_append, List.append_assoc]
      rfl
  | silent => exact absurd rfl hh
  | stuck => exact absurd rfl hh

namespace Agent

/-- A run looks at the client only where it has something left to tell. -/
theorem attentive_run (a : Agent) (r : ChatRequest) (hh : (a.run r).ending ≠ .hung) :
    (a.run r).Attentive := by
  rcases a.run_cases r with hrun | ⟨rounds, close, -, hactions, hending⟩
  · rw [hrun]
    exact .inr fun as hs => by simp at hs
  refine or_iff_not_imp_left.mpr fun hc as hs => ?_
  rw [hending] at hh hc
  obtain ⟨before, reason, hlast⟩ := Close.exists_done_last hh hc
  rw [hactions, hlast, ← List.append_assoc, List.suffix_concat_iff] at hs
  rcases hs with hs | ⟨as', hs, -⟩
  · cases hs
  · cases as' with
    | nil => cases hs
    | cons a as' =>
        cases hs
        simp

/-- A client who stays for some events of a run is told the first of them, and the run counts as
cancelled unless those were all. -/
theorem follow_of_stays {config : AgentConfig} {backend : Backend} {registry : Registry}
    {request : ChatRequest} {n : Nat} {c : Client} {whole : Trace} {ending : Ending RunOutcome}
    (hd : registry.Discreet) (hc : c.StaysFor n)
    (hw : ((ofRegistry config backend registry).run request).follow .patient .empty =
      (whole, ending))
    (he : ending ≠ .hung) :
    ∃ part, ((ofRegistry config backend registry).run request).follow c .empty =
        (part, if n < whole.events.length then .failed .cancelled else ending) ∧
      part.events = whole.events.take n := by
  have hdismiss := dismiss_not_mem_run hd config backend request
  rw [Process.follow_patient hdismiss] at hw
  cases hw
  have hcut := Process.watch_of_stays (h := []) (hc.listener hdismiss) (Nat.zero_le n)
    (attentive_run _ _ he) he
  rw [← Trace.ofHistory_nil, Process.follow_eq_watch]
  exact ⟨_, Prod.ext rfl hcut.ending_eq, hcut.events_eq⟩

theorem follow_of_leaves_hello :
    let run := (ofRegistry ⟨"Be brief.", 2, .sequential⟩ .echoing .echoing).run .hello
    let whole := run.follow .patient .empty
    ∃ part, run.follow ⟨some 2, none, true⟩ .empty =
        (part, if 2 < whole.1.events.length then .failed .cancelled else whole.2) ∧
      part.events = whole.1.events.take 2 :=
  follow_of_stays Registry.discreet_echoing (.leaves true) rfl (by decide)

end Agent

end ChatAgent
