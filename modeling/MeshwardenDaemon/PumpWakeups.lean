import MeshwardenDaemon.MessagePump

/-! The pump loses no wakeup. A parked pump that may fetch has nothing to fetch, or a
push is under way to it, or its event is set; while a fetch is under way, an answer that
there is no message is followed by the push for every message queued since. -/
namespace MeshwardenDaemon.MessagePump
open Library

/-- On the wire every answer of connection `c` that there was no message is followed by
a push, unless there still is none. -/
def Followed (c : Conn) (queued : ℕ) : List Rx → Prop
  | [] => True
  | rx :: rest => (rx = ⟨c, .answer .noMoreMsgs⟩ → queued = 0 ∨ ⟨c, .messagesWaiting⟩ ∈ rest) ∧
      Followed c queued rest

section Followed
variable {c : Conn} {queued : ℕ} {wire : List Rx}

theorem Followed.mono (h : Followed c queued wire) {fewer : ℕ} (le : fewer ≤ queued) :
    Followed c fewer wire := by
  induction wire with
  | nil => trivial
  | cons rx rest ih =>
    refine ⟨fun noMore => (h.1 noMore).imp_left fun empty => ?_, ih h.2⟩
    exact Nat.le_zero.mp (empty ▸ le)

theorem followed_push (c : Conn) (queued : ℕ) (wire : List Rx) :
    Followed c queued (wire ++ [⟨c, .messagesWaiting⟩]) := by
  induction wire with
  | nil => simp [Followed]
  | cons rx rest ih => exact ⟨fun _ => Or.inr (by simp), ih⟩

theorem Followed.append (h : Followed c queued wire) {rx : Rx}
    (empty : rx = ⟨c, .answer .noMoreMsgs⟩ → queued = 0) : Followed c queued (wire ++ [rx]) := by
  induction wire with
  | nil => exact ⟨fun noMore => Or.inl (empty noMore), trivial⟩
  | cons _ rest ih =>
    exact ⟨fun noMore => (h.1 noMore).imp_right fun later => List.mem_append_left _ later,
      ih h.2⟩

theorem followed_fresh (older : ∀ rx ∈ wire, rx.conn < c) : Followed c queued wire := by
  induction wire with
  | nil => trivial
  | cons rx rest ih =>
    refine ⟨?_, ih fun x hx => older x (List.mem_cons_of_mem _ hx)⟩
    rintro rfl
    exact absurd (older _ List.mem_cons_self) (Nat.lt_irrefl _)

end Followed

def State.PushUndelivered (s : State) : Prop :=
  ∃ c ∈ s.mc, ⟨c, .messagesWaiting⟩ ∈ s.wire ∨ c ∈ s.held

def State.Covered (s : State) : Prop := s.queued = 0 ∨ s.PushUndelivered

structure Awake (P : Settings) (s : State) : Prop where
  mc_lt : ∀ c, s.mc = some c → c < s.connections
  wire_lt : ∀ rx ∈ s.wire, rx.conn < s.connections
  followed : ∀ c, s.mc = some c → s.connected = true → Followed c s.queued s.wire
  /-- A fetch on an older connection does not make up for the event. -/
  switched : ∀ c c', s.mc = some c → s.connected = true → s.pump.fetch = some c' → c' ≠ c →
    s.msgsWaiting = true
  parked : s.pump = .parked → s.isConnected = true → s.fetchAllowed P = true →
    s.msgsWaiting = true ∨ s.Covered ∨ s.failed = true

theorem init_awake (P : Settings) (queued : ℕ) : Awake P (init queued) := by
  refine ⟨?_, ?_, ?_, ?_, ?_⟩ <;> simp [init, State.isConnected]

section Awake
variable {P : Settings} {s t : State} {a : Action}

theorem isConnected_iff : s.isConnected = true ↔ ∃ c, s.mc = some c ∧ s.connected = true := by
  simp only [State.isConnected, Bool.and_eq_true, Option.isSome_iff_exists, exists_and_right]

theorem Awake.quiet (h : Awake P s) (mc : t.mc = s.mc) (connected : t.connected = s.connected)
    (connections : t.connections = s.connections) (queued : t.queued = s.queued)
    (wire : t.wire = s.wire)
    (fetch : ∀ c, t.pump.fetch = some c → s.mc = some c ∨
      s.pump.fetch = some c ∧ (s.msgsWaiting = true → t.msgsWaiting = true))
    (parked : t.pump = .parked → t.isConnected = true → t.fetchAllowed P = true →
      t.msgsWaiting = true ∨ t.Covered ∨ t.failed = true) : Awake P t := by
  refine ⟨?_, ?_, ?_, ?_, parked⟩
  · rw [mc, connections]
    exact h.mc_lt
  · rw [wire, connections]
    exact h.wire_lt
  · rw [mc, connected, queued, wire]
    exact h.followed
  · rw [mc, connected]
    intro c c' hc up hf other
    rcases fetch c' hf with same | ⟨before, kept⟩
    · exact absurd (Option.some.inj (same.symm.trans hc)) other
    · exact kept (h.switched c c' hc up before other)

/-- The inner loop parks only where it may not fetch, so nothing rests on the event. -/
theorem Awake.fetchOrPark (h : Awake P s) (msgsWaiting : Bool) :
    Awake P ({ s with msgsWaiting := msgsWaiting }.fetchOrPark P) := by
  unfold State.fetchOrPark
  split
  · rename_i c hc
    split
    · exact h.quiet rfl rfl rfl rfl rfl (fun c' hf => Or.inl (hc.trans hf)) (by simp)
    · rename_i look
      refine h.quiet rfl rfl rfl rfl rfl (by simp [Pump.fetch]) fun _ up allowed => ?_
      simp only [State.isConnected, Bool.and_eq_true] at up
      exact absurd (Bool.and_eq_true_iff.mpr ⟨up.2, allowed⟩) look
  · rename_i hc
    refine h.quiet rfl rfl rfl rfl rfl (by simp [Pump.fetch]) fun _ up _ => ?_
    simp only [State.isConnected, Bool.and_eq_true] at up
    exact absurd up.1 (by simp [show s.mc = none from hc])

theorem Awake.finish (h : Awake P s) {result : Result}
    (noMore : result = .noMoreMsgs → s.isConnected = true → s.msgsWaiting = true ∨ s.Covered) :
    Awake P (s.finish result) := by
  refine h.quiet rfl rfl rfl rfl rfl ?_ fun parked up _ => ?_
  · cases result <;> simp [State.finish, Pump.fetch]
  · cases result with
    | message => simp [State.finish] at parked
    | noMoreMsgs => exact (noMore rfl up).imp_right Or.inl
    | error => exact Or.inr (Or.inr rfl)

theorem Awake.behead (h : Awake P s) {rx : Rx} {rest : List Rx} (wire : s.wire = rx :: rest)
    (held : List Conn) (sub : s.held ⊆ held)
    (push : rx.kind = .messagesWaiting → s.mc = some rx.conn → rx.conn ∈ held) :
    Awake P { s with wire := rest, held := held } := by
  have followed : ∀ c, s.mc = some c → s.connected = true →
      Followed c s.queued (rx :: rest) := wire ▸ h.followed
  refine ⟨h.mc_lt, fun x hx => h.wire_lt x (wire ▸ List.mem_cons_of_mem _ hx),
    fun c hc up => (followed c hc up).2, h.switched, fun parked up allowed => ?_⟩
  refine (h.parked parked up allowed).imp_right (Or.imp_left (Or.imp_right ?_))
  rintro ⟨c, hc, onWire | inHand⟩
  · rw [wire] at onWire
    rcases List.mem_cons.mp onWire with rfl | later
    · exact ⟨c, hc, Or.inr (push rfl hc)⟩
    · exact ⟨c, hc, Or.inl later⟩
  · exact ⟨c, hc, Or.inr (sub inHand)⟩

theorem Awake.sends (h : Awake P s) {rx : Rx} (queued requests : ℕ) (mc : s.mc = some rx.conn)
    (followed : s.connected = true → Followed rx.conn queued (s.wire ++ [rx]))
    (news : rx.kind = .messagesWaiting ∨ queued ≤ s.queued) :
    Awake P { s with queued := queued, requests := requests, wire := s.wire ++ [rx] } := by
  refine ⟨h.mc_lt, fun x hx => ?_, fun c hc up => ?_, h.switched, fun parked up allowed => ?_⟩
  · rcases List.mem_append.mp hx with old | new
    · exact h.wire_lt x old
    · obtain rfl := List.mem_singleton.mp new
      exact h.mc_lt _ mc
  · obtain rfl := Option.some.inj (mc.symm.trans hc)
    exact followed up
  · rcases news with push | fewer
    · refine Or.inr (Or.inl (Or.inr ⟨rx.conn, mc, Or.inl ?_⟩))
      exact List.mem_append_right _ (List.mem_singleton.mpr (by rw [← push]))
    · refine (h.parked parked up allowed).imp_right (Or.imp_left ?_)
      rintro (empty | ⟨c, hc, under⟩)
      · exact Or.inl (Nat.le_zero.mp (empty ▸ fewer))
      · exact Or.inr ⟨c, hc, under.imp_left (List.mem_append_left _)⟩

theorem Awake.down (h : Awake P s) (mc : Option Conn) (sub : ∀ c, mc = some c → s.mc = some c)
    (connected : Bool) (off : mc.isSome = true → connected = false) (queued : ℕ) :
    Awake P { s with mc := mc, connected := connected, queued := queued } := by
  have never : ∀ c, mc = some c → connected = true → False := by
    intro c hc up
    simp [off (by simp [hc])] at up
  refine ⟨fun c hc => h.mc_lt c (sub c hc), h.wire_lt, fun c hc up => (never c hc up).elim,
    fun c _ hc up => (never c hc up).elim, fun _ up => ?_⟩
  obtain ⟨c, hc, up⟩ := isConnected_iff.mp up
  exact (never c hc up).elim

theorem Awake.connect (h : Awake P s) :
    Awake P { s with
      mc := some s.connections, connected := true, connections := s.connections + 1
      msgsWaiting := true, requests := 0 } := by
  refine ⟨fun c hc => ?_, fun rx hx => Nat.lt_succ_of_lt (h.wire_lt rx hx), fun c hc _ => ?_,
    fun _ _ _ _ _ _ => rfl, fun _ _ _ => Or.inl rfl⟩
  · obtain rfl := Option.some.inj hc
    exact Nat.lt_succ_self _
  · obtain rfl := Option.some.inj hc
    exact followed_fresh h.wire_lt

theorem Awake.arrive (h : Awake P s) (hs : MessagePump.step P s .arrive = some t) :
    Awake P t := by
  obtain ⟨c, hc, -, rfl⟩ | ⟨down, rfl⟩ := arrive_cases hs
  · exact h.sends _ _ hc (fun _ => followed_push _ _ _) (Or.inl rfl)
  · refine h.down s.mc (fun _ hc => hc) s.connected (fun some => ?_) _
    simpa [State.isConnected, some] using down

theorem Awake.answer (h : Awake P s) (hs : MessagePump.step P s .answer = some t) :
    Awake P t := by
  obtain ⟨c, hc, -, ⟨empty, rfl⟩ | ⟨-, rfl⟩⟩ := answer_cases hs
  · exact h.sends _ _ hc (fun up => (h.followed c hc up).append fun _ => empty)
      (Or.inr (Nat.le_refl _))
  · exact h.sends _ _ hc
      (fun up => ((h.followed c hc up).mono (Nat.sub_le _ _)).append (by simp))
      (Or.inr (Nat.sub_le _ _))

theorem Awake.refuse (h : Awake P s) (hs : MessagePump.step P s .refuse = some t) :
    Awake P t := by
  obtain ⟨c, hc, -, rfl⟩ := refuse_cases hs
  exact h.sends _ _ hc (fun up => (h.followed c hc up).append (by simp)) (Or.inr (Nat.le_refl _))

theorem Awake.receive (h : Awake P s) (hs : MessagePump.step P s .receive = some t) :
    Awake P t := by
  obtain ⟨c, rest, wire, rfl⟩ | ⟨c, result, rest, wire, answered⟩ := receive_cases hs
  · exact h.behead wire _ (List.subset_append_left _ _) (fun _ _ => by simp)
  · have beheaded := h.behead wire s.held (List.Subset.refl _) (by simp)
    obtain ⟨running, rfl⟩ | ⟨-, rfl⟩ := answered
    · refine beheaded.finish fun noMore up => ?_
      obtain ⟨c', hc', connected⟩ := isConnected_iff.mp up
      by_cases same : c = c'
      · -- the messages queued since the answer have their push behind it
        subst same noMore
        have followed := wire ▸ h.followed c hc' connected
        exact Or.inr ((followed.1 rfl).imp_right fun later => ⟨c, hc', Or.inl later⟩)
      · exact Or.inl (h.switched c' c hc' connected (by rw [running, Pump.fetch]) same)
    · exact beheaded

theorem Awake.wake (h : Awake P s) (hs : MessagePump.step P s .wake = some t) : Awake P t := by
  obtain ⟨-, -, ⟨-, rfl⟩ | rfl⟩ := wake_cases hs
  · exact h.quiet rfl rfl rfl rfl rfl (by simp [Pump.fetch]) (by simp)
  · exact h.fetchOrPark false

theorem Awake.advance (h : Awake P s) (ha : a = .acquire ∨ a = .send ∨ a = .sendLost)
    (hs : MessagePump.step P s a = some t) : Awake P t := by
  rcases ha with rfl | rfl | rfl <;>
  · simp only [MessagePump.step] at hs
    split at hs
    · rename_i c phase
      split at hs <;> cases hs
      refine h.quiet rfl rfl rfl rfl rfl (fun c' hf => Or.inr ⟨?_, id⟩) (by simp)
      rw [phase]
      exact hf
    · cases hs

theorem Awake.leave (h : Awake P s) (client : ℕ) : Awake P { s with
    clients := s.clients.erase client
    msgsWaiting := s.msgsWaiting || (s.clients.erase client).isEmpty } := by
  refine h.quiet rfl rfl rfl rfl rfl
    (fun _ hf => Or.inr ⟨hf, fun set => by simp [set]⟩) fun parked up allowed => ?_
  by_cases last : (s.clients.erase client).isEmpty = true
  · exact Or.inl (by simp [last])
  · -- with a client left the fetch is as allowed as it was
    have before : s.fetchAllowed P = true := by
      cases mode : P.messageFetchMode <;> simp_all [State.fetchAllowed]
    exact (h.parked parked up before).imp_left fun set => by simp [set]

theorem Awake.step (h : Awake P s) (hs : MessagePump.step P s a = some t) : Awake P t := by
  cases a with
  | arrive => exact h.arrive hs
  | answer => exact h.answer hs
  | refuse => exact h.refuse hs
  | receive => exact h.receive hs
  | wake => exact h.wake hs
  | acquire => exact h.advance (.inl rfl) hs
  | send => exact h.advance (.inr (.inl rfl)) hs
  | sendLost => exact h.advance (.inr (.inr rfl)) hs
  | drop =>
    obtain ⟨rx, rest, wire, gone, rfl⟩ := drop_cases hs
    exact h.behead wire s.held (List.Subset.refl _) fun _ present => absurd present gone
  | onMessagesWaiting k =>
    simp only [MessagePump.step, Option.ite_none_right_eq_some, Option.some.injEq] at hs
    obtain ⟨-, rfl⟩ := hs
    exact h.quiet rfl rfl rfl rfl rfl (fun _ hf => Or.inr ⟨hf, fun _ => rfl⟩)
      fun _ _ _ => Or.inl rfl
  | join client =>
    simp only [MessagePump.step, Option.ite_none_left_eq_some, Option.some.injEq] at hs
    obtain ⟨-, rfl⟩ := hs
    refine h.quiet rfl rfl rfl rfl rfl (fun _ hf => Or.inr ⟨hf, id⟩) fun parked up allowed => ?_
    refine h.parked parked up ?_
    cases mode : P.messageFetchMode <;> simp_all [State.fetchAllowed]
  | leave client =>
    simp only [MessagePump.step, Option.ite_none_right_eq_some, Option.some.injEq] at hs
    obtain ⟨-, rfl⟩ := hs
    exact h.leave client
  | connect =>
    simp only [MessagePump.step, Option.ite_none_right_eq_some, Option.some.injEq] at hs
    obtain ⟨-, rfl⟩ := hs
    exact h.connect
  | lose =>
    simp only [MessagePump.step, Option.ite_none_right_eq_some, Option.some.injEq] at hs
    obtain ⟨-, rfl⟩ := hs
    exact h.down s.mc (fun _ hc => hc) false (fun _ => rfl) s.queued
  | close =>
    simp only [MessagePump.step, Option.ite_none_right_eq_some, Option.some.injEq] at hs
    obtain ⟨-, rfl⟩ := hs
    exact h.down none (by simp) s.connected (by simp) s.queued
  | timeout | raise =>
    simp only [MessagePump.step] at hs
    split at hs <;> cases hs <;> exact h.finish (by simp)
  | resume =>
    simp only [MessagePump.step, Option.ite_none_right_eq_some, Option.some.injEq] at hs
    obtain ⟨-, rfl⟩ := hs
    exact h.fetchOrPark s.msgsWaiting
  | otherAcquires | otherFetches | otherReleases =>
    simp only [MessagePump.step, Option.ite_none_right_eq_some, Option.some.injEq] at hs
    obtain ⟨-, rfl⟩ := hs
    exact h.quiet rfl rfl rfl rfl rfl (fun _ hf => Or.inr ⟨hf, id⟩) h.parked
  | stop =>
    cases hs
    exact h.quiet rfl rfl rfl rfl rfl (fun _ hf => Or.inr ⟨hf, fun _ => rfl⟩)
      fun _ _ _ => Or.inl rfl
  | cancel =>
    simp only [MessagePump.step, Option.ite_none_right_eq_some, Option.some.injEq] at hs
    obtain ⟨-, rfl⟩ := hs
    exact h.quiet rfl rfl rfl rfl rfl (by simp [Pump.fetch]) (by simp)

end Awake

/-- Whenever the pump is parked with its event clear and could fetch, there is nothing
to fetch, or a push is still to be delivered, or its last `get_msg` failed. -/
theorem no_lost_wakeup (P : Settings) (queued : ℕ) (acts : List Action) (s : State)
    (hrun : Runs.run (step P) (init queued) acts = some s) (parked : s.pump = .parked)
    (clear : s.msgsWaiting = false) (up : s.isConnected = true)
    (allowed : s.fetchAllowed P = true) :
    s.queued = 0 ∨ s.PushUndelivered ∨ s.failed = true := by
  have awake : Awake P s :=
    Runs.reachable (fun _ _ _ h hs => h.step hs) (init_awake P queued) hrun
  rcases awake.parked parked up allowed with set | covered | failed
  · exact absurd (clear.symm.trans set) Bool.false_ne_true
  · exact covered.imp_right Or.inl
  · exact Or.inr (Or.inr failed)

def drainAndArrive : List Action :=
  [.connect, .wake, .acquire, .send, .answer, .receive, .resume, .acquire, .send, .answer,
    .arrive, .receive]

theorem no_lost_wakeup_drainAndArrive :
    ∃ s, Runs.run (step autoFetch) (init 1) drainAndArrive = some s ∧
      (s.queued = 0 ∨ s.PushUndelivered ∨ s.failed = true) := by
  have got : (Runs.run (step autoFetch) (init 1) drainAndArrive).map (fun s =>
      (s.pump, s.msgsWaiting, s.isConnected, s.fetchAllowed autoFetch)) =
        some (.parked, false, true, true) := by
    decide +kernel
  simp only [Option.map_eq_some_iff, Prod.mk.injEq] at got
  obtain ⟨s, hs, parked, clear, up, allowed⟩ := got
  exact ⟨s, hs, no_lost_wakeup autoFetch 1 drainAndArrive s hs parked clear up allowed⟩

end MeshwardenDaemon.MessagePump
