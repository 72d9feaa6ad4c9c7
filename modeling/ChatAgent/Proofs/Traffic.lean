import ChatAgent.Event.Recorder
import ChatAgent.Proofs.Delivery
import Mathlib.Data.List.Induction

/-!
# Traffic

A client loses no event, is told none twice and none before another. What has been accepted into a
channel is read in order, or is still there as long as somebody reads, and of a batch always the
first events are accepted, however often it has to wait. A recorder has the events that it has been
told before it was closed (`clients_miss_nothing`).
-/

namespace ChatAgent

/-! ## One move -/

/-- The event that has been read. -/
def Reading.events : Reading → List Event
  | .event e => [e]
  | .nothing | .gone => []

namespace Channel

variable {c : Channel}

/-- How many more events a channel can hold. -/
def room (c : Channel) : Nat := c.capacity - c.queued.length

/-- The events that are accepted when events are offered one by one, up to the first that is not. -/
def takes (c : Channel) : List Event → List Event
  | [] => []
  | e :: es =>
    match c.emit e with
    | (.accepted, c) => e :: c.takes es
    | _ => []

theorem emit_of_full (hr : c.hasReader = true) (h : c.capacity ≤ c.queued.length) (e : Event) :
    c.emit e = (.waiting, c) := by
  simp [emit, closed, hr, Nat.not_lt.mpr h]

theorem emit_of_left (hr : c.hasReader = false) (e : Event) : c.emit e = (.cancelled, c) := by
  simp [emit, closed, hr]

theorem emitAll_of_left (hr : c.hasReader = false) (es : List Event) :
    c.takes es = [] ∧ c.emitAll es = (if es = [] then .accepted else .cancelled, c) := by
  cases es with
  | nil => exact ⟨rfl, rfl⟩
  | cons e es => simp [takes, emitAll, emit_of_left hr]

/-- As many events are accepted as there is room for. -/
theorem emitAll_of_reader (hr : c.hasReader = true) (es : List Event) :
    c.takes es = es.take c.room ∧
      c.emitAll es = (if es.length ≤ c.room then .accepted else .waiting,
        { c with queued := c.queued ++ es.take c.room }) := by
  induction es generalizing c with
  | nil => simp [takes, emitAll]
  | cons e es ih =>
      rcases Nat.lt_or_ge c.queued.length c.capacity with hroom | hfull
      · obtain ⟨htakes, hall⟩ := @ih { c with queued := c.queued ++ [e] } hr
        have hsucc : c.room = Channel.room { c with queued := c.queued ++ [e] } + 1 := by
          simp only [room, List.length_append, List.length_singleton]
          omega
        rw [takes, emitAll, emit_of_room hr hroom]
        simp only [htakes, hall, hsucc, List.take_succ_cons, List.length_cons,
          Nat.add_le_add_iff_right, List.append_assoc, List.singleton_append, and_self]
      · have hzero : c.room = 0 := Nat.sub_eq_zero_of_le hfull
        simp [takes, emitAll, emit_of_full hr hfull, hzero]

theorem takes_prefix (c : Channel) (es : List Event) : c.takes es <+: es := by
  cases hr : c.hasReader with
  | false =>
      rw [(emitAll_of_left hr es).1]
      exact List.nil_prefix
  | true =>
      rw [(emitAll_of_reader hr es).1]
      exact List.take_prefix _ _

theorem receive_cases (c : Channel) :
    (∃ e es, c.hasReader = true ∧ c.queued = e :: es ∧
      c.receive = (.event e, { c with queued := es })) ∨
    c.receive.1.events = [] ∧ c.receive.2 = c := by
  by_cases hr : c.hasReader = true
  · cases hq : c.queued with
    | nil => exact .inr (by simp [receive, closed, hr, hq, Reading.events])
    | cons e es => exact .inl ⟨e, es, hr, rfl, receive_of_queued hr hq⟩
  · exact .inr (by simp [receive, closed, hr, Reading.events])

theorem emit_eq (c : Channel) (e : Event) : c.emit e = c.emitAll [e] := by
  simp only [emitAll]
  split <;> assumption

end Channel

/-! ## Traffic through a channel -/

/-- A channel, what is left of a batch that has to wait, and the events that have been accepted and
read so far. -/
structure Traffic where
  channel : Channel
  waiting : List Event
  accepted : List Event
  received : List Event

/-- What those at the two ends of a channel do. -/
inductive Traffic.Move where
  | emit (e : Event)
  | emitAll (es : List Event)
  /-- The batch that waits goes on. When something else is done instead, it has been abandoned. -/
  | resume
  | receive
  /-- Somebody asks whether the reader has gone away. -/
  | ask
  | leave
  deriving DecidableEq

namespace Traffic

/-- Some events have been offered, with such an answer. -/
def offered (t : Traffic) (es : List Event) (answer : Acceptance × Channel) : Traffic where
  channel := answer.2
  waiting := if answer.1 = .waiting then es.drop (t.channel.takes es).length else []
  accepted := t.accepted ++ t.channel.takes es
  received := t.received

def move (t : Traffic) : Move → Traffic
  | .emit e => t.offered [e] (t.channel.emit e)
  | .emitAll es => t.offered es (t.channel.emitAll es)
  | .resume => t.offered t.waiting (t.channel.emitAll t.waiting)
  | .receive =>
    { t with
      channel := t.channel.receive.2
      received := t.received ++ t.channel.receive.1.events }
  | .ask => t
  | .leave => { t with channel := t.channel.leave }

def run (c : Channel) (moves : List Move) : Traffic := moves.foldl move ⟨c, [], [], []⟩

variable {capacity : Nat} {t : Traffic}

theorem run_concat (c : Channel) (moves : List Move) (m : Move) :
    run c (moves ++ [m]) = (run c moves).move m := by
  rw [run, List.foldl_append]
  rfl

/-- What holds all along: the channel is never overfull, and what has been accepted is read in
order, and still there as long as it has not been read and the reader has not gone away. -/
structure Sound (capacity : Nat) (t : Traffic) : Prop where
  capacity_eq : t.channel.capacity = capacity
  fits : t.channel.queued.length ≤ capacity
  kept : t.channel.hasReader = true → t.received ++ t.channel.queued = t.accepted
  read : t.received <+: t.accepted

theorem Sound.offered (h : t.Sound capacity) (es : List Event) :
    (t.offered es (t.channel.emitAll es)).Sound capacity := by
  obtain ⟨rfl, hfits, hkept, hread⟩ := h
  cases hr : t.channel.hasReader with
  | false =>
      obtain ⟨htakes, hall⟩ := Channel.emitAll_of_left hr es
      rw [Traffic.offered, htakes, hall, List.append_nil]
      exact ⟨rfl, hfits, hkept, hread⟩
  | true =>
      obtain ⟨htakes, hall⟩ := Channel.emitAll_of_reader hr es
      rw [Traffic.offered, htakes, hall]
      refine ⟨rfl, ?_, fun _ => ?_, hread.trans (List.prefix_append _ _)⟩
      · have hlength := List.length_take_le t.channel.room es
        simp only [List.length_append]
        rw [Channel.room] at hlength ⊢
        omega
      · rw [← hkept hr, List.append_assoc]

theorem Sound.move (h : t.Sound capacity) (m : Move) : (t.move m).Sound capacity := by
  cases m with
  | emit e =>
      rw [Traffic.move, Channel.emit_eq]
      exact h.offered [e]
  | emitAll es => exact h.offered es
  | resume => exact h.offered t.waiting
  | ask => exact h
  | leave => exact ⟨h.capacity_eq, Nat.zero_le _, nofun, h.read⟩
  | receive =>
      rcases t.channel.receive_cases with ⟨e, es, hr, hqueued, hreceive⟩ | ⟨hevents, hsame⟩
      · obtain ⟨rfl, hfits, hkept, -⟩ := h
        have htold : (t.received ++ [e]) ++ es = t.accepted := by
          rw [← hkept hr, hqueued, List.append_assoc, List.singleton_append]
        rw [hqueued] at hfits
        rw [Traffic.move, hreceive]
        exact ⟨rfl, Nat.le_of_succ_le hfits, fun _ => htold, ⟨es, htold⟩⟩
      · rw [Traffic.move, hevents, hsame, List.append_nil]
        exact h

theorem sound_run {c : Channel} (h : Channel.new? capacity = some c) (moves : List Move) :
    (run c moves).Sound capacity := by
  induction moves using List.reverseRecOn with
  | nil =>
      obtain ⟨-, rfl⟩ := Channel.of_new? h
      exact ⟨rfl, Nat.zero_le _, fun _ => rfl, List.prefix_rfl⟩
  | append_singleton moves m ih =>
      rw [run_concat]
      exact ih.move m

/-! ## Whether somebody reads -/

theorem hasReader_offered (t : Traffic) (es : List Event) :
    (t.offered es (t.channel.emitAll es)).channel.hasReader = t.channel.hasReader := by
  cases hr : t.channel.hasReader with
  | false => rw [offered, (Channel.emitAll_of_left hr es).2, hr]
  | true => simp only [offered, (Channel.emitAll_of_reader hr es).2, hr]

theorem hasReader_move (t : Traffic) (m : Move) :
    (t.move m).channel.hasReader = (t.channel.hasReader && m != .leave) := by
  cases m with
  | emit e =>
      rw [move, Channel.emit_eq, hasReader_offered]
      simp
  | emitAll es =>
      rw [move, hasReader_offered]
      simp
  | resume =>
      rw [move, hasReader_offered]
      simp
  | ask => simp [move]
  | leave => simp [move, Channel.leave]
  | receive =>
      rcases t.channel.receive_cases with ⟨e, es, hr, -, hreceive⟩ | ⟨-, hsame⟩
      · simp [move, hreceive, hr]
      · simp [move, hsame]

theorem hasReader_run {c : Channel} (h : Channel.new? capacity = some c) (moves : List Move) :
    (run c moves).channel.hasReader = true ↔ .leave ∉ moves := by
  induction moves using List.reverseRecOn with
  | nil =>
      obtain ⟨-, rfl⟩ := Channel.of_new? h
      simp [run]
  | append_singleton moves m ih =>
      rw [run_concat, hasReader_move, Bool.and_eq_true, ih]
      simp only [bne_iff_ne, ne_eq, List.mem_append, List.mem_singleton, not_or,
        @eq_comm _ Move.leave]

/-! ## Batches that have to wait -/

/-- Nothing new is offered. -/
def Move.Quiet : Move → Prop
  | .emit _ | .emitAll _ => False
  | .resume | .receive | .ask | .leave => True

/-- Since `before`, when the batch was offered, its first events have been accepted, and the others
wait as long as somebody reads. -/
def Partly (es : List Event) (before t : Traffic) : Prop :=
  ∃ p, t.accepted = before.accepted ++ p ∧ p ++ t.waiting <+: es ∧
    (t.channel.hasReader = true → p ++ t.waiting = es)

theorem partly_offered (t : Traffic) (es : List Event) :
    Partly es t (t.offered es (t.channel.emitAll es)) := by
  refine ⟨t.channel.takes es, rfl, ?_⟩
  cases hr : t.channel.hasReader with
  | false =>
      obtain ⟨htakes, hall⟩ := Channel.emitAll_of_left hr es
      rw [offered, htakes, hall]
      cases es <;> simp [hr]
  | true =>
      obtain ⟨htakes, hall⟩ := Channel.emitAll_of_reader hr es
      have hsplit : (t.channel.takes es ++ (t.offered es (t.channel.emitAll es)).waiting) = es := by
        rw [offered, htakes, hall]
        by_cases hlength : es.length ≤ t.channel.room
        · simp [hlength, List.take_of_length_le]
        · simp [hlength, Nat.min_eq_left (Nat.le_of_not_le hlength)]
      exact ⟨⟨[], (List.append_nil _).trans hsplit⟩, fun _ => hsplit⟩

variable {es : List Event} {before : Traffic}

/-- What waits is a batch of its own, of which again the first events are accepted. -/
theorem Partly.resume (h : Partly es before t) : Partly es before (t.move .resume) := by
  obtain ⟨p, haccepted, hprefix, hwhole⟩ := h
  obtain ⟨q, hq, hqprefix, hqwhole⟩ := t.partly_offered t.waiting
  refine ⟨p ++ q, ?_, ?_, fun hr => ?_⟩
  · rw [move, hq, haccepted, List.append_assoc]
  · rw [List.append_assoc]
    exact ((List.prefix_append_right_inj p).mpr hqprefix).trans hprefix
  · rw [List.append_assoc, move, hqwhole hr]
    exact hwhole (t.hasReader_offered t.waiting ▸ hr)

theorem Partly.move (h : Partly es before t) {m : Move} (hm : m.Quiet) :
    Partly es before (t.move m) := by
  cases m with
  | emit | emitAll => exact hm.elim
  | resume => exact h.resume
  | ask => exact h
  | receive =>
      obtain ⟨p, haccepted, hprefix, hwhole⟩ := h
      refine ⟨p, haccepted, hprefix, fun hr => hwhole ?_⟩
      rw [hasReader_move, Bool.and_eq_true] at hr
      exact hr.1
  | leave =>
      obtain ⟨p, haccepted, hprefix, -⟩ := h
      exact ⟨p, haccepted, hprefix, nofun⟩

theorem partly_run (c : Channel) (moves : List Move) (es : List Event) {later : List Move}
    (h : ∀ m ∈ later, m.Quiet) :
    Partly es (run c moves) (run c (moves ++ .emitAll es :: later)) := by
  induction later using List.reverseRecOn with
  | nil =>
      rw [run_concat]
      exact partly_offered _ es
  | append_singleton later m ih =>
      rw [← List.cons_append, ← List.append_assoc, run_concat]
      exact (ih fun m' hm' => h m' (List.mem_append_left _ hm')).move (h m (by simp))

end Traffic

/-! ## Recorders -/

/-- What is done with a recorder. -/
inductive Recorder.Move where
  | emit (e : Event)
  | emitAll (es : List Event)
  | close
  deriving DecidableEq

namespace Recorder

variable {r : Recorder}

def Move.events : Move → List Event
  | .emit e => [e]
  | .emitAll es => es
  | .close => []

def move (r : Recorder) : Move → Recorder
  | .emit e => (r.emit e).2
  | .emitAll es => (r.emitAll es).2
  | .close => r.close

def run (moves : List Move) : Recorder := moves.foldl move empty

theorem emit_of_closed (h : r.closed = true) (e : Event) : r.emit e = (.cancelled, r) := by
  simp [emit, h]

theorem emitAll_of_closed (h : r.closed = true) (es : List Event) :
    r.emitAll es = (if es = [] then .accepted else .cancelled, r) := by
  cases es with
  | nil => rfl
  | cons e es => simp [emitAll, emit_of_closed h]

theorem emitAll_of_open (h : r.closed = false) (es : List Event) :
    r.emitAll es = (.accepted, { r with events := r.events ++ es }) := by
  induction es generalizing r with
  | nil => simp [emitAll]
  | cons e es ih =>
      have hemit : r.emit e = (.accepted, { r with events := r.events ++ [e] }) := by
        simp [emit, h]
      rw [emitAll, hemit]
      simp only
      rw [@ih { r with events := r.events ++ [e] } h]
      simp

theorem emit_eq (r : Recorder) (e : Event) : r.emit e = r.emitAll [e] := by
  simp only [emitAll]
  split <;> simp_all

theorem move_of_closed (h : r.closed = true) (m : Move) : r.move m = r := by
  cases m with
  | emit e => rw [move, emit_of_closed h]
  | emitAll es => rw [move, emitAll_of_closed h]
  | close => rw [move, close, ← h]

theorem move_of_open (h : r.closed = false) (m : Move) :
    r.move m = ⟨r.events ++ m.events, m == .close⟩ := by
  cases m with
  | emit e => simp [move, emit_eq, emitAll_of_open h, Move.events, h]
  | emitAll es => simp [move, emitAll_of_open h, Move.events, h]
  | close => simp [move, close, Move.events]

theorem foldl_move_of_closed (h : r.closed = true) (moves : List Move) :
    moves.foldl move r = r := by
  induction moves with
  | nil => rfl
  | cons m moves ih => rw [List.foldl_cons, move_of_closed h, ih]

theorem foldl_move_of_open (h : r.closed = false) (moves : List Move) :
    moves.foldl move r =
      ⟨r.events ++ (moves.takeWhile (· != .close)).flatMap Move.events, moves.contains .close⟩ := by
  induction moves generalizing r with
  | nil => simp [← h]
  | cons m moves ih =>
      rw [List.foldl_cons, move_of_open h]
      by_cases hm : m = .close
      · subst hm
        rw [foldl_move_of_closed rfl]
        simp [Move.events]
      · have hopen : (m == .close) = false := beq_eq_false_iff_ne.mpr hm
        rw [ih hopen]
        simp [hm, Ne.symm hm]

theorem closed_run (moves : List Move) : (run moves).closed = true ↔ .close ∈ moves := by
  rw [run, foldl_move_of_open rfl]
  exact List.contains_iff_mem

/-- A batch is taken as a whole or not at all. -/
theorem emitAll_run (moves : List Move) (es : List Event) :
    ((run moves).emitAll es).1 = (if .close ∈ moves ∧ es ≠ [] then .cancelled else .accepted) ∧
      (((run moves).emitAll es).1 ≠ .accepted → ((run moves).emitAll es).2 = run moves) := by
  by_cases h : (run moves).closed = true
  · rw [emitAll_of_closed h]
    cases es <;> simp [(closed_run moves).mp h]
  · rw [emitAll_of_open (Bool.eq_false_iff.mpr h)]
    simp [mt (closed_run moves).mpr h]

end Recorder

/-! ## What a client is told -/

namespace Traffic

variable {capacity : Nat} {c : Channel}

/-- What is said to a batch, and how much of it is accepted. -/
theorem emitAll_run (h : Channel.new? capacity = some c) (moves : List Move) (es : List Event) :
    let channel := (run c moves).channel
    let free := capacity - channel.queued.length
    (channel.emitAll es).1 =
        (if .leave ∈ moves then if es = [] then .accepted else .cancelled
        else if es.length ≤ free then .accepted else .waiting) ∧
      channel.takes es = if .leave ∈ moves then [] else es.take free := by
  intro channel free
  have hroom : channel.room = free := by
    simp only [Channel.room, channel, free, (sound_run h moves).capacity_eq]
  by_cases hleave : Move.leave ∈ moves
  · have hr : channel.hasReader = false :=
      Bool.eq_false_iff.mpr fun hr => (hasReader_run h moves).mp hr hleave
    simp [Channel.emitAll_of_left hr es, hleave]
  · have hr : channel.hasReader = true := (hasReader_run h moves).mpr hleave
    simp [Channel.emitAll_of_reader hr es, hroom, hleave]

theorem emit_run (h : Channel.new? capacity = some c) (moves : List Move) (e : Event) :
    ((run c moves).channel.emit e).1 =
      if .leave ∈ moves then .cancelled
      else if (run c moves).channel.queued.length < capacity then .accepted else .waiting := by
  rw [Channel.emit_eq, (emitAll_run h moves [e]).1, if_neg (List.cons_ne_nil e [])]
  simp only [List.length_singleton, Nat.one_le_iff_ne_zero, Nat.sub_ne_zero_iff_lt]

/-- How much of a batch is accepted can be told from what is said to it. -/
theorem takes_run (h : Channel.new? capacity = some c) (moves : List Move) (es : List Event) :
    let channel := (run c moves).channel
    let free := capacity - channel.queued.length
    match (channel.emitAll es).1 with
    | .accepted => channel.takes es = es
    | .waiting => .leave ∉ moves ∧ free < es.length ∧ channel.takes es = es.take free
    | .cancelled => .leave ∈ moves ∧ channel.takes es = [] := by
  intro channel free
  obtain ⟨hsaid, htakes⟩ := emitAll_run h moves es
  by_cases hleave : Move.leave ∈ moves
  · rw [if_pos hleave] at hsaid htakes
    rw [hsaid, htakes]
    by_cases hes : es = [] <;> simp [hes, hleave]
  · rw [if_neg hleave] at hsaid htakes
    by_cases hlength : es.length ≤ free
    · rw [if_pos hlength] at hsaid
      rw [hsaid]
      exact htakes.trans (List.take_of_length_le hlength)
    · rw [if_neg hlength] at hsaid
      rw [hsaid]
      exact ⟨hleave, Nat.lt_of_not_le hlength, htakes⟩

end Traffic

/-- A channel loses, repeats and reorders nothing, and neither does a recorder. -/
theorem clients_miss_nothing {capacity : Nat} (h : 1 ≤ capacity) :
    (∃ c, Channel.new? capacity = some c ∧ ∀ moves : List Traffic.Move,
      let t := Traffic.run c moves
      let free := capacity - t.channel.queued.length
      t.received <+: t.accepted ∧
      (.leave ∉ moves → t.received ++ t.channel.queued = t.accepted) ∧
      t.channel.queued.length ≤ capacity ∧
      (t.channel.closed = true ↔ .leave ∈ moves) ∧
      (∀ e, (t.channel.emit e).1 =
        if .leave ∈ moves then .cancelled
        else if t.channel.queued.length < capacity then .accepted else .waiting) ∧
      (∀ es, t.channel.takes es <+: es ∧
        match (t.channel.emitAll es).1 with
        | .accepted => t.channel.takes es = es
        | .waiting => .leave ∉ moves ∧ free < es.length ∧ t.channel.takes es = es.take free
        | .cancelled => .leave ∈ moves ∧ t.channel.takes es = []) ∧
      -- a batch that had to wait, and went on or was given up later
      ∀ es later, (∀ m : Traffic.Move, m ∈ later → m.Quiet) →
        Traffic.Partly es t (Traffic.run c (moves ++ .emitAll es :: later))) ∧
    ∀ moves : List Recorder.Move,
      let r := Recorder.run moves
      r.events = (moves.takeWhile (· != .close)).flatMap Recorder.Move.events ∧
      (r.closed = true ↔ .close ∈ moves) ∧
      (∀ e, (r.emit e).1 = if .close ∈ moves then .cancelled else .accepted) ∧
      ∀ es, (r.emitAll es).1 = (if .close ∈ moves ∧ es ≠ [] then .cancelled else .accepted) ∧
        ((r.emitAll es).1 ≠ .accepted → (r.emitAll es).2 = r) := by
  refine ⟨?_, fun moves => ?_⟩
  · have hnew : Channel.new? capacity = some ⟨capacity, [], true⟩ :=
      if_neg (Nat.one_le_iff_ne_zero.mp h)
    refine ⟨_, hnew, fun moves => ?_⟩
    intro t free
    have hsound := Traffic.sound_run hnew moves
    have hreader := Traffic.hasReader_run hnew moves
    refine ⟨hsound.read, fun hl => hsound.kept (hreader.mpr hl), hsound.fits, ?_,
      Traffic.emit_run hnew moves,
      fun es => ⟨t.channel.takes_prefix es, Traffic.takes_run hnew moves es⟩,
      fun es later => Traffic.partly_run _ moves es⟩
    rw [Channel.closed, Bool.not_eq_true', ← Bool.not_eq_true, hreader, not_not]
  · intro r
    have hevents : r.events = (moves.takeWhile (· != .close)).flatMap Recorder.Move.events :=
      congrArg Recorder.events (Recorder.foldl_move_of_open rfl moves)
    refine ⟨hevents, Recorder.closed_run moves, fun e => ?_, Recorder.emitAll_run moves⟩
    rw [Recorder.emit_eq, (Recorder.emitAll_run moves [e]).1]
    simp

/-- Three events go through a channel with room for two, once the first has been read. -/
theorem clients_miss_nothing_of_three :
    let moves := [.emitAll [.content "a", .content "b", .done none], .receive, Traffic.Move.resume]
    1 ≤ 2 ∧ ∃ c, Channel.new? 2 = some c ∧
      (Traffic.run c moves).received = [.content "a"] ∧
      (Traffic.run c moves).channel.queued = [.content "b", .done none] ∧
      (Traffic.run c moves).received ++ (Traffic.run c moves).channel.queued =
        (Traffic.run c moves).accepted := by
  intro moves
  have hroom : 1 ≤ 2 := Nat.le_succ 1
  obtain ⟨⟨c, hc, hall⟩, -⟩ := clients_miss_nothing hroom
  obtain ⟨-, hkept, -⟩ := hall moves
  obtain ⟨-, rfl⟩ := Channel.of_new? hc
  exact ⟨hroom, _, hc, rfl, rfl, hkept (by decide)⟩

end ChatAgent
