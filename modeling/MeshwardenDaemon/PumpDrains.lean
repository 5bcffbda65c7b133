import MeshwardenDaemon.PumpWakeups
import Mathlib.Order.Nat

/-! The pump empties the node. Where nothing forbids it to fetch, no order of its steps, the
node's and the dispatcher's goes on for ever, and when none of them is left to take there is no
message left either, unless the last fetch failed: the pump then waits for the next push. -/
namespace MeshwardenDaemon.MessagePump
open Library

structure Engaged (s : State) : Prop where
  ended : s.pump = .ended → s.stop = true
  lock : s.commandLock = some .pump → ∃ mc, s.pump = .holding mc ∨ s.pump = .running mc
  fetch_lt : ∀ c, s.pump.fetch = some c → c < s.connections
  /-- An answer will come if the connection stays. -/
  running : ∀ c, s.pump = .running c → s.mc = some c →
    0 < s.requests ∨ ∃ result, ⟨c, .answer result⟩ ∈ s.wire

section Engaged
variable {P : Settings} {s t : State} {a : Action}

theorem Engaged.keep (h : Engaged s) (pump : t.pump = s.pump) (stop : s.stop = true → t.stop = true)
    (lock : t.commandLock = some .pump → s.commandLock = some .pump)
    (connections : s.connections ≤ t.connections)
    (running : ∀ c, s.pump = .running c → t.mc = some c →
      0 < t.requests ∨ ∃ result, ⟨c, .answer result⟩ ∈ t.wire) : Engaged t where
  ended at_end := stop (h.ended (pump ▸ at_end))
  lock held := by
    rw [pump]
    exact h.lock (lock held)
  fetch_lt c hc := (h.fetch_lt c (pump ▸ hc)).trans_le connections
  running c hc := running c (pump ▸ hc)

theorem Engaged.idle (pump : t.pump = .parked ∨ t.pump = .sleeping)
    (lock : t.commandLock ≠ some .pump) : Engaged t := by
  refine ⟨?_, fun held => absurd held lock, ?_, ?_⟩ <;>
    rcases pump with parked | sleeping <;> simp [*, Pump.fetch]

theorem Engaged.unlocked (h : Engaged s) (pump : s.pump.fetch = none) :
    s.commandLock ≠ some .pump := by
  intro held
  obtain ⟨mc, holding | running⟩ := h.lock held
  · simp [holding, Pump.fetch] at pump
  · simp [running, Pump.fetch] at pump

theorem engaged_finish (s : State) (result : Result) : Engaged (s.finish result) := by
  refine Engaged.idle ?_ (by simp [State.finish])
  cases result <;> simp [State.finish]

theorem engaged_fetchOrPark (awake : Awake P s) (lock : s.commandLock ≠ some .pump)
    (msgsWaiting : Bool) :
    Engaged ({ s with msgsWaiting := msgsWaiting }.fetchOrPark P) := by
  unfold State.fetchOrPark
  split
  · rename_i c hc
    split
    · refine ⟨by simp, fun held => absurd held lock, fun c' hf => ?_, by simp⟩
      obtain rfl : c = c' := by simpa [Pump.fetch] using hf
      exact awake.mc_lt c hc
    · exact Engaged.idle (Or.inl rfl) lock
  · exact Engaged.idle (Or.inl rfl) lock

theorem Engaged.behead (h : Engaged s) {rx : Rx} {rest : List Rx} (wire : s.wire = rx :: rest)
    (held : List Conn)
    (other : ∀ c, s.pump = .running c → s.mc = some c → ∀ result, rx ≠ ⟨c, .answer result⟩) :
    Engaged { s with wire := rest, held := held } := by
  refine h.keep rfl id id le_rfl fun c running hc => ?_
  refine (h.running c running hc).imp_right ?_
  rintro ⟨result, onWire⟩
  rw [wire] at onWire
  rcases List.mem_cons.mp onWire with first | later
  · exact absurd first.symm (other c running hc result)
  · exact ⟨result, later⟩

theorem Engaged.answered (h : Engaged s) {c : Conn} (up : s.mc = some c) (result : Result)
    (requests queued : ℕ) :
    Engaged { s with
      requests := requests, queued := queued, wire := s.wire ++ [⟨c, .answer result⟩] } := by
  refine h.keep rfl id id le_rfl fun c' _ hc' => Or.inr ⟨result, ?_⟩
  simp [Option.some.inj (up.symm.trans hc')]

theorem Engaged.arrive (h : Engaged s) (hs : MessagePump.step P s .arrive = some t) :
    Engaged t := by
  obtain ⟨c, -, -, rfl⟩ | ⟨-, rfl⟩ := arrive_cases hs
  · exact h.keep rfl id id le_rfl fun c running hc => (h.running c running hc).imp_right
      (Exists.imp fun _ => List.mem_append_left _)
  · exact h.keep rfl id id le_rfl h.running

theorem Engaged.answer (h : Engaged s) (hs : MessagePump.step P s .answer = some t) :
    Engaged t := by
  obtain ⟨c, up, -, ⟨-, rfl⟩ | ⟨-, rfl⟩⟩ := answer_cases hs
  · exact h.answered up .noMoreMsgs _ _
  · exact h.answered up .message _ _

theorem Engaged.refuse (h : Engaged s) (hs : MessagePump.step P s .refuse = some t) :
    Engaged t := by
  obtain ⟨c, up, -, rfl⟩ := refuse_cases hs
  exact h.answered up .error _ _

theorem Engaged.receive (h : Engaged s) (hs : MessagePump.step P s .receive = some t) :
    Engaged t := by
  obtain ⟨c, rest, wire, rfl⟩ | ⟨c, result, rest, wire, ⟨-, rfl⟩ | ⟨apart, rfl⟩⟩ :=
    receive_cases hs
  · exact h.behead wire _ (by simp)
  · exact engaged_finish _ result
  · refine h.behead wire s.held ?_
    rintro c' running _ result' same
    cases same
    exact apart running

theorem Engaged.drop (h : Engaged s) (hs : MessagePump.step P s .drop = some t) : Engaged t := by
  obtain ⟨rx, rest, wire, gone, rfl⟩ := drop_cases hs
  refine h.behead wire s.held ?_
  rintro c _ up result rfl
  exact gone up

theorem Engaged.wake (h : Engaged s) (awake : Awake P s)
    (hs : MessagePump.step P s .wake = some t) : Engaged t := by
  obtain ⟨parked, -, goesOn⟩ := wake_cases hs
  have lock := h.unlocked (by rw [parked]; rfl)
  obtain ⟨stop, rfl⟩ | rfl := goesOn
  · exact ⟨fun _ => stop, fun held => absurd held lock, by simp [Pump.fetch], by simp⟩
  · exact engaged_fetchOrPark awake lock false

theorem Engaged.advance (h : Engaged s) (ha : a = .acquire ∨ a = .send ∨ a = .sendLost)
    (hs : MessagePump.step P s a = some t) : Engaged t := by
  rcases ha with rfl | rfl | rfl <;>
  · simp only [MessagePump.step] at hs
    split at hs
    · rename_i c phase
      have older := h.fetch_lt c (by rw [phase]; rfl)
      split at hs <;> cases hs
      refine ⟨by simp, fun _ => ⟨c, by simp⟩, fun c' hf => ?_, fun c' running up => ?_⟩
      · obtain rfl : c = c' := by simpa [Pump.fetch] using hf
        exact older
      · simp_all
    · cases hs

theorem Engaged.cancel (hs : MessagePump.step P s .cancel = some t) : Engaged t := by
  simp only [MessagePump.step, Option.ite_none_right_eq_some, Option.some.injEq] at hs
  obtain ⟨stop, rfl⟩ := hs
  refine ⟨fun _ => stop, fun held => ?_, by simp [Pump.fetch], by simp⟩
  simp only at held
  split at held
  · cases held
  · rename_i free
    exact absurd held free

theorem Engaged.step (h : Engaged s) (awake : Awake P s) (hs : MessagePump.step P s a = some t) :
    Engaged t := by
  cases a with
  | arrive => exact h.arrive hs
  | answer => exact h.answer hs
  | refuse => exact h.refuse hs
  | receive => exact h.receive hs
  | drop => exact h.drop hs
  | wake => exact h.wake awake hs
  | acquire => exact h.advance (.inl rfl) hs
  | send => exact h.advance (.inr (.inl rfl)) hs
  | sendLost => exact h.advance (.inr (.inr rfl)) hs
  | cancel => exact Engaged.cancel hs
  | onMessagesWaiting | join | leave | lose =>
    simp only [MessagePump.step, Option.ite_none_right_eq_some, Option.ite_none_left_eq_some,
      Option.some.injEq] at hs
    obtain ⟨_, rfl⟩ := hs
    exact h.keep rfl id id le_rfl h.running
  | otherReleases | otherAcquires =>
    simp only [MessagePump.step, Option.ite_none_right_eq_some, Option.some.injEq] at hs
    obtain ⟨_, rfl⟩ := hs
    exact h.keep rfl id (by simp) le_rfl h.running
  | otherFetches =>
    simp only [MessagePump.step, Option.ite_none_right_eq_some, Option.some.injEq] at hs
    obtain ⟨_, rfl⟩ := hs
    exact h.keep rfl id id le_rfl fun _ _ _ => Or.inl (Nat.succ_pos _)
  | connect =>
    simp only [MessagePump.step, Option.ite_none_right_eq_some, Option.some.injEq] at hs
    obtain ⟨-, rfl⟩ := hs
    refine h.keep rfl id id (Nat.le_succ _) fun c running hc => ?_
    have older := h.fetch_lt c (by rw [running]; rfl)
    obtain rfl := Option.some.inj hc
    exact absurd older (Nat.lt_irrefl _)
  | close =>
    simp only [MessagePump.step, Option.ite_none_right_eq_some, Option.some.injEq] at hs
    obtain ⟨-, rfl⟩ := hs
    exact h.keep rfl id id le_rfl fun c _ hc => by simp at hc
  | resume =>
    simp only [MessagePump.step, Option.ite_none_right_eq_some, Option.some.injEq] at hs
    obtain ⟨sleeping, rfl⟩ := hs
    exact engaged_fetchOrPark awake (h.unlocked (by rw [sleeping]; rfl)) s.msgsWaiting
  | timeout | raise =>
    simp only [MessagePump.step] at hs
    split at hs <;> cases hs <;> exact engaged_finish s .error
  | stop =>
    cases hs
    exact h.keep rfl (fun _ => rfl) id le_rfl h.running

end Engaged

/-- The steps of the pump, the node and the dispatcher, with those at which a fetch fails. -/
def Progress : Action → Prop
  | .answer | .refuse | .receive | .drop | .onMessagesWaiting _ | .wake | .acquire | .send
  | .sendLost | .timeout | .raise | .resume | .otherReleases => True
  | _ => False

instance (a : Action) : Decidable (Progress a) := by
  unfold Progress
  induction a using Action.casesOn <;> infer_instance

/-- No fetch fails that was sent on the connection that is up. -/
def Unfailing (s : State) : Action → Prop
  | .refuse | .raise => False
  | .timeout => ∀ mc ∈ s.mc, s.pump ≠ .running mc
  | _ => True

instance (s : State) (a : Action) : Decidable (Unfailing s a) := by
  unfold Unfailing
  induction a using Action.casesOn <;> infer_instance

structure MayFetch (P : Settings) (s : State) : Prop where
  up : s.isConnected = true
  allowed : s.fetchAllowed P = true
  runs : s.stop = false

/-- The node has refused nothing, and a failed fetch has left the event set. -/
structure Unhindered (P : Settings) (s : State) : Prop extends MayFetch P s where
  heard : s.pump = .parked → s.msgsWaiting = false → s.failed = false
  answered : ∀ rx ∈ s.wire, rx.kind ≠ .answer .error

def Pump.effort : Pump → ℕ
  | .sleeping => 6
  | .waiting _ => 5
  | .holding _ => 4
  | .running _ => 1
  | .parked | .ended => 0

/-- A message makes the pump fetch once more, and a push may wake it. -/
def Rx.effort (rx : Rx) : ℕ :=
  match rx.kind with
  | .answer .message => 7
  | .answer _ => 1
  | .messagesWaiting => 8

def wireEffort : List Rx → ℕ
  | [] => 0
  | rx :: rest => rx.effort + wireEffort rest

def State.effort (s : State) : ℕ :=
  6 * s.queued + 2 * s.requests + wireEffort s.wire + 7 * s.held.length +
    (if s.msgsWaiting then 6 else 0) + s.pump.effort +
    (if s.commandLock = some .other then 1 else 0)

section effort
variable {P : Settings} {s t : State} {a : Action}

end effort

section Unhindered
variable {P : Settings} {s t : State} {a : Action}

theorem fetchOrPark_frame (s : State) : (s.fetchOrPark P).mc = s.mc ∧
    (s.fetchOrPark P).connected = s.connected ∧ (s.fetchOrPark P).clients = s.clients ∧
    (s.fetchOrPark P).stop = s.stop ∧ (s.fetchOrPark P).wire = s.wire := by
  unfold State.fetchOrPark
  split
  · split <;> exact ⟨rfl, rfl, rfl, rfl, rfl⟩
  · exact ⟨rfl, rfl, rfl, rfl, rfl⟩

theorem progress_frame (progress : Progress a) (hs : MessagePump.step P s a = some t) :
    t.mc = s.mc ∧ t.connected = s.connected ∧ t.clients = s.clients ∧ t.stop = s.stop := by
  cases a with
  | wake =>
    obtain ⟨-, -, ⟨-, rfl⟩ | rfl⟩ := wake_cases hs
    · exact ⟨rfl, rfl, rfl, rfl⟩
    · obtain ⟨mc, connected, clients, stop, -⟩ :=
        fetchOrPark_frame (P := P) { s with msgsWaiting := false }
      exact ⟨mc, connected, clients, stop⟩
  | resume =>
    simp only [MessagePump.step, Option.ite_none_right_eq_some, Option.some.injEq] at hs
    obtain ⟨-, rfl⟩ := hs
    obtain ⟨mc, connected, clients, stop, -⟩ := fetchOrPark_frame (P := P) s
    exact ⟨mc, connected, clients, stop⟩
  | answer | refuse | receive | drop | onMessagesWaiting | acquire | send | sendLost | timeout
  | raise | otherReleases =>
    simp only [MessagePump.step] at hs
    repeat' split at hs
    all_goals cases hs
    all_goals exact ⟨rfl, rfl, rfl, rfl⟩
  | _ => exact progress.elim

theorem MayFetch.step (h : MayFetch P s) (progress : Progress a)
    (hs : MessagePump.step P s a = some t) : MayFetch P t := by
  obtain ⟨mc, connected, clients, stop⟩ := progress_frame progress hs
  refine ⟨?_, ?_, stop.trans h.runs⟩
  · rw [State.isConnected, mc, connected]
    exact h.up
  · rw [State.fetchAllowed, clients]
    exact h.allowed

theorem MayFetch.goes (h : MayFetch P s) (msgsWaiting : Bool) :
    ({ s with msgsWaiting := msgsWaiting }.fetchOrPark P).pump ≠ .parked := by
  obtain ⟨c, up, connected⟩ := isConnected_iff.mp h.up
  have allowed : State.fetchAllowed P { s with msgsWaiting := msgsWaiting } = true := h.allowed
  unfold State.fetchOrPark
  split
  · rw [if_pos (Bool.and_eq_true_iff.mpr ⟨connected, allowed⟩)]
    simp
  · rename_i none
    cases up.symm.trans none

theorem Unhindered.answered_step (h : Unhindered P s) (progress : Progress a)
    (unfailing : Unfailing s a) (hs : MessagePump.step P s a = some t) :
    ∀ rx ∈ t.wire, rx.kind ≠ .answer .error := by
  cases a with
  | answer =>
    have answers : ∀ c result, result ≠ Result.error → ∀ rx ∈ s.wire ++ [⟨c, .answer result⟩],
        rx.kind ≠ .answer .error := by
      intro c result good rx hrx
      rcases List.mem_append.mp hrx with old | new
      · exact h.answered rx old
      · obtain rfl := List.mem_singleton.mp new
        simpa using good
    obtain ⟨c, -, -, ⟨-, rfl⟩ | ⟨-, rfl⟩⟩ := answer_cases hs <;> exact answers _ _ (by simp)
  | receive =>
    obtain ⟨c, rest, wire, rfl⟩ | ⟨c, result, rest, wire, ⟨-, rfl⟩ | ⟨-, rfl⟩⟩ :=
      receive_cases hs <;>
      exact fun rx hrx => h.answered rx (wire ▸ List.mem_cons_of_mem _ hrx)
  | drop =>
    obtain ⟨rx, rest, wire, -, rfl⟩ := drop_cases hs
    exact fun rx hrx => h.answered rx (wire ▸ List.mem_cons_of_mem _ hrx)
  | wake =>
    obtain ⟨-, -, ⟨-, rfl⟩ | rfl⟩ := wake_cases hs
    · exact h.answered
    · rw [(fetchOrPark_frame _).2.2.2.2]
      exact h.answered
  | resume =>
    simp only [MessagePump.step, Option.ite_none_right_eq_some, Option.some.injEq] at hs
    obtain ⟨-, rfl⟩ := hs
    rw [(fetchOrPark_frame _).2.2.2.2]
    exact h.answered
  | onMessagesWaiting | acquire | send | sendLost | timeout | otherReleases =>
    simp only [MessagePump.step] at hs
    repeat' split at hs
    all_goals cases hs
    all_goals exact h.answered
  | refuse | raise => exact unfailing.elim
  | _ => exact progress.elim

/-- A fetch that times out was on a connection that is gone, and the one that is up has set
the event. -/
theorem Unhindered.timeout (h : Unhindered P s) (awake : Awake P s)
    (unfailing : Unfailing s .timeout) (hs : MessagePump.step P s .timeout = some t) :
    t.msgsWaiting = true := by
  simp only [MessagePump.step] at hs
  split at hs <;> cases hs
  rename_i c running
  obtain ⟨c', up, connected⟩ := isConnected_iff.mp h.up
  refine awake.switched c' c up connected (by rw [running]; rfl) ?_
  rintro rfl
  exact unfailing c up running

theorem Unhindered.heard_step (h : Unhindered P s) (awake : Awake P s) (progress : Progress a)
    (unfailing : Unfailing s a) (hs : MessagePump.step P s a = some t) :
    t.pump = .parked → t.msgsWaiting = false → t.failed = false := by
  intro parked clear
  cases a with
  | receive =>
    obtain ⟨c, rest, -, rfl⟩ | ⟨c, result, rest, wire, ⟨-, rfl⟩ | ⟨-, rfl⟩⟩ := receive_cases hs
    · exact h.heard parked clear
    · have answered : result ≠ .error := by
        have good := h.answered ⟨c, .answer result⟩ (wire ▸ List.mem_cons_self)
        simpa using good
      exact decide_eq_false answered
    · exact h.heard parked clear
  | onMessagesWaiting k =>
    simp only [MessagePump.step, Option.ite_none_right_eq_some, Option.some.injEq] at hs
    obtain ⟨-, rfl⟩ := hs
    cases clear
  | wake =>
    obtain ⟨-, -, ⟨-, rfl⟩ | rfl⟩ := wake_cases hs
    · cases parked
    · exact absurd parked (h.goes false)
  | resume =>
    simp only [MessagePump.step, Option.ite_none_right_eq_some, Option.some.injEq] at hs
    obtain ⟨-, rfl⟩ := hs
    exact absurd parked (h.goes s.msgsWaiting)
  | acquire | send | sendLost =>
    simp only [MessagePump.step] at hs
    split at hs
    · split at hs <;> cases hs
      cases parked
    · cases hs
  | timeout => cases (h.timeout awake unfailing hs).symm.trans clear
  | answer | drop | otherReleases =>
    simp only [MessagePump.step] at hs
    repeat' split at hs
    all_goals cases hs
    all_goals exact h.heard parked clear
  | refuse | raise => exact unfailing.elim
  | _ => exact progress.elim

theorem Unhindered.step (h : Unhindered P s) (awake : Awake P s) (progress : Progress a)
    (unfailing : Unfailing s a) (hs : MessagePump.step P s a = some t) : Unhindered P t where
  toMayFetch := h.toMayFetch.step progress hs
  heard := h.heard_step awake progress unfailing hs
  answered := h.answered_step progress unfailing hs

end Unhindered

end MeshwardenDaemon.MessagePump
