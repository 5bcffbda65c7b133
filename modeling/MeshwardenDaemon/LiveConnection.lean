import MeshwardenDaemon.Attribution

/-! On which connection a command goes out. The connection is read before the wait
for the command slot and used after it, so a hand-over is live exactly when the
connection was not lost during the wait. -/
namespace MeshwardenDaemon.CommandSlot
open Protocol ResponseCache Library

structure Linked (s : State) : Prop where
  mc_lt : ∀ c, s.mc = some c → c < s.connections
  conn_lt : ∀ i mc, (s.calls i).phase = .waiting mc → mc < s.connections
  losses_le : ∀ i mc, (s.calls i).phase = .waiting mc → (s.calls i).losses ≤ s.losses
  live_iff : ∀ i mc, (s.calls i).phase = .waiting mc →
    (s.mc = some mc ∧ s.connected = true ↔ (s.calls i).losses = s.losses)

theorem init_linked (P : Settings) : Linked (init P) := by
  constructor <;> simp [init]

theorem Linked.link {s : State} (h : Linked s) {a : Action} {mc : Option Conn}
    {connected : Bool} {connections losses : ℕ} {clock : ℚ}
    (l : Link s a mc connected connections losses) :
    Linked { s with
      clock := clock, mc := mc, connected := connected
      connections := connections, losses := losses } := by
  cases l with
  | same => exact ⟨h.mc_lt, h.conn_lt, h.losses_le, h.live_iff⟩
  | connect free =>
    refine ⟨fun c hc => ?_, fun i c hc => (h.conn_lt i c hc).trans_le (Nat.le_succ _),
      h.losses_le, fun i c hc => ?_⟩
    · obtain rfl := Option.some.inj hc
      exact Nat.lt_succ_self _
    · -- the new connection is none of those waited on
      have older := h.conn_lt i c hc
      have lost := (h.live_iff i c hc).not.mp (by simp [free])
      simp [lost, older.ne']
  | lose up =>
    refine ⟨h.mc_lt, h.conn_lt, fun i c hc => (h.losses_le i c hc).trans (Nat.le_succ _),
      fun i c hc => ?_⟩
    have := h.losses_le i c hc
    simp only [Bool.false_eq_true, and_false, false_iff]
    omega
  | close held down =>
    refine ⟨nofun, h.conn_lt, h.losses_le, fun i c hc => ?_⟩
    have lost := (h.live_iff i c hc).not.mp (by simp [down])
    simp [lost]

theorem Linked.setCall {s t : State} (h : Linked s) {i : CallId} {d : Call}
    (calls : t.calls = Function.update s.calls i d) (mc : t.mc = s.mc)
    (connected : t.connected = s.connected) (connections : t.connections = s.connections)
    (losses : t.losses = s.losses)
    (waiting : ∀ c, d.phase = .waiting c →
      (s.mc = some c ∧ s.connected = true ∧ d.losses = s.losses) ∨
      ((s.calls i).phase = .waiting c ∧ d.losses = (s.calls i).losses)) : Linked t := by
  have known : ∀ j c, (t.calls j).phase = .waiting c → c < s.connections ∧
      (t.calls j).losses ≤ s.losses ∧
      (s.mc = some c ∧ s.connected = true ↔ (t.calls j).losses = s.losses) := by
    intro j c hj
    rw [calls] at hj ⊢
    by_cases hji : j = i
    · subst hji
      rw [Function.update_self] at hj ⊢
      rcases waiting c hj with ⟨hmc, up, same⟩ | ⟨before, same⟩
      · exact ⟨h.mc_lt c hmc, same.le, iff_of_true ⟨hmc, up⟩ same⟩
      · rw [same]
        exact ⟨h.conn_lt j c before, h.losses_le j c before, h.live_iff j c before⟩
    · rw [Function.update_of_ne hji] at hj ⊢
      exact ⟨h.conn_lt j c hj, h.losses_le j c hj, h.live_iff j c hj⟩
  refine ⟨?_, ?_, ?_, ?_⟩
  · rw [mc, connections]
    exact h.mc_lt
  · rw [connections]
    exact fun j c hj => (known j c hj).1
  · rw [losses]
    exact fun j c hj => (known j c hj).2.1
  · rw [mc, connected, losses]
    exact fun j c hj => (known j c hj).2.2

theorem Linked.move {P : Settings} {s t : State} {a : Action} (h : Linked s)
    (m : Move P s a t) : Linked t := by
  cases m with
  | environment later link => exact h.link link
  | outside cache proxied hits out =>
    exact h.setCall rfl rfl rfl rfl rfl fun c hc => Or.inl (out.waiting c hc)
  | @take i mc free phase =>
    refine h.setCall rfl rfl rfl rfl rfl fun c hc => ?_
    cases library : (s.calls i).origin.isLibrary <;> simp [library] at hc
  | transmit phase =>
    exact h.setCall rfl rfl rfl rfl rfl fun c hc => Or.inr ⟨hc, rfl⟩
  | sendReturns | hands | collects | streams | reboots | completes | delivers
  | libraryReturns | abandons => exact h.setCall rfl rfl rfl rfl rfl nofun
  | librarySend | answer | push => exact ⟨h.mc_lt, h.conn_lt, h.losses_le, h.live_iff⟩
  | @dispatch r rest outbox =>
    rcases dispatchFrame_cases { s with outbox := rest } r with same | ⟨q, -, -, queued⟩
    · rw [same]
      exact ⟨h.mc_lt, h.conn_lt, h.losses_le, h.live_iff⟩
    · rw [queued]
      exact h.setCall rfl rfl rfl rfl rfl fun c hc => Or.inr ⟨hc, rfl⟩

theorem Linked.step {P : Settings} {s t : State} {a : Action} (h : Linked s)
    (hs : CommandSlot.step P s a = some t) : Linked t :=
  h.move (move_of_step hs)

/-- Every command went to the connection that was the current one, while the
manager was connected. -/
def LiveHandovers (s : State) : Prop :=
  ∀ h ∈ s.handovers, h.mc = some h.conn ∧ h.connected = true

/-- A caller whose connection was lost while it waited sends nothing and gets
`DeviceUnavailable`. -/
def RefusesLost (P : Settings) (s : State) : Action → Prop
  | .acquire i => (s.calls i).losses ≠ s.losses → ∀ t, step P s (.acquire i) = some t →
      (t.calls i).phase = .raised .deviceUnavailable ∧ t.handovers = s.handovers
  | _ => True

/-- The connection was not lost while the caller that takes the slot waited. -/
def Kept (s : State) : Action → Prop
  | .acquire i => (s.calls i).losses = s.losses
  | _ => True

instance (s : State) (a : Action) : Decidable (Kept s a) := by
  unfold Kept
  induction a using Action.casesOn <;> infer_instance

theorem Move.handovers {P : Settings} {s t : State} {a : Action} (m : Move P s a t) :
    t.handovers = s.handovers ∨ ∃ i mc, a = .acquire i ∧ s.commandLock = none ∧
      (s.calls i).phase = .waiting mc ∧ t = s.takeSlot i mc := by
  cases m with
  | @take i mc free phase => exact Or.inr ⟨i, mc, rfl, free, phase, rfl⟩
  | @dispatch r rest outbox =>
    left
    rcases dispatchFrame_cases { s with outbox := rest } r with same | ⟨q, -, -, queued⟩
    · rw [same]
    · rw [queued]
      rfl
  | _ => exact Or.inl rfl

theorem acquire_inv {P : Settings} {s t : State} {i : CallId}
    (h : step P s (.acquire i) = some t) :
    ∃ mc, (s.calls i).phase = .waiting mc ∧ t = s.takeSlot i mc := by
  simp only [step] at h
  split at h
  · rename_i mc free phase
    exact ⟨mc, phase, (Option.some.inj h).symm⟩
  · cases h

theorem liveHandovers_step {P : Settings} {s t : State} {a : Action} (linked : Linked s)
    (hs : step P s a = some t) : LiveHandovers t ↔ LiveHandovers s ∧ Kept s a := by
  cases a with
  | acquire i =>
    obtain ⟨mc, phase, rfl⟩ := acquire_inv hs
    have handed : (s.takeSlot i mc).handovers = s.handovers ++ [⟨i, mc, s.mc, s.connected⟩] :=
      rfl
    rw [LiveHandovers, handed, List.forall_mem_append, List.forall_mem_singleton]
    exact and_congr Iff.rfl (linked.live_iff i mc phase)
  | _ =>
    rcases (move_of_step hs).handovers with same | ⟨_, _, acquire, _⟩
    · simp [LiveHandovers, same, Kept]
    · cases acquire

theorem refusesLost_iff {P : Settings} {s t : State} {a : Action}
    (hs : step P s a = some t) : RefusesLost P s a ↔ Kept s a := by
  cases a with
  | acquire i =>
    obtain ⟨mc, phase, rfl⟩ := acquire_inv hs
    refine ⟨?_, ?_⟩
    · intro refuses
      by_contra lost
      have := (refuses lost _ hs).2
      simp [State.takeSlot, State.setCall] at this
    · exact fun kept lost => absurd kept lost
  | _ => exact Iff.rfl

/-- In every run, all commands go to the live connection and callers that lost
theirs are refused exactly when no caller that takes the slot lost its connection
while it waited. -/
theorem live_connection_iff (P : Settings) (acts : List Action) (s : State)
    (hrun : Runs.run (step P) (init P) acts = some s) :
    (LiveHandovers s ∧ Runs.Along (step P) (RefusesLost P) (init P) acts) ↔
      Runs.Along (step P) Kept (init P) acts := by
  have linked : ∀ s a t, Linked s → step P s a = some t → Linked t :=
    fun _ _ _ h hs => h.step hs
  have handed : LiveHandovers s ↔
      LiveHandovers (init P) ∧ Runs.Along (step P) Kept (init P) acts :=
    Runs.run_iff_along linked (fun _ _ _ h hs => liveHandovers_step h hs) (init_linked P) hrun
  have refused : Runs.Along (step P) (RefusesLost P) (init P) acts ↔
      Runs.Along (step P) Kept (init P) acts :=
    Runs.along_congr linked (fun _ _ _ _ hs => refusesLost_iff hs) (init_linked P) hrun
  have start : LiveHandovers (init P) := by simp [LiveHandovers, init]
  rw [handed, refused]
  exact ⟨fun h => h.2, fun h => ⟨⟨start, h⟩, h⟩⟩

def queuedRun : List Action :=
  [.connect, .command 0 .getBat, .acquire 0, .sendRawCommand 1 [20], .handleCommand 2 0 [1],
    .logged 2, .librarySend 0 [20], .answer [[12]], .dispatch, .libraryReturns 0, .acquire 1,
    .transmit 1, .sendReturns 1, .answer [[12]], .dispatch, .receive 1, .acquire 2]

theorem live_connection_queued :
    ∃ s, Runs.run (step sampleSettings) (init sampleSettings) queuedRun = some s ∧
      LiveHandovers s := by
  obtain ⟨s, hs⟩ := Option.isSome_iff_exists.mp
    (by decide +kernel : (Runs.run (step sampleSettings) (init sampleSettings)
      queuedRun).isSome = true)
  exact ⟨s, hs, ((live_connection_iff sampleSettings queuedRun s hs).mpr
    (by decide +kernel)).1⟩

def rebuiltRun : List Action :=
  [.connect, .command 0 .getBat, .acquire 0, .sendRawCommand 1 [20], .lose, .close, .connect,
    .fail 0 .commandFailed, .acquire 1]

/-- Call 1 sends on the connection that was closed. -/
theorem rebuilt_connection_stale :
    ¬ ∀ s, Runs.run (step sampleSettings) (init sampleSettings) rebuiltRun = some s →
      LiveHandovers s := by
  intro supposed
  have got : (Runs.run (step sampleSettings) (init sampleSettings) rebuiltRun).map
      (fun s => s.handovers) = some [⟨0, 0, some 0, true⟩, ⟨1, 0, some 1, true⟩] := by
    decide +kernel
  rw [Option.map_eq_some_iff] at got
  obtain ⟨s, hs, handovers⟩ := got
  have live := supposed s hs ⟨1, 0, some 1, true⟩ (by simp [handovers])
  exact absurd live.1 (by decide)

end MeshwardenDaemon.CommandSlot
