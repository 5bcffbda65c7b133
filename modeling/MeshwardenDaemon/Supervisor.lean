import MeshwardenDaemon.Library.Runs
import Mathlib.Data.List.Chain
import Mathlib.Data.Rat.Defs
import Mathlib.Algebra.Order.Ring.Unbundled.Rat

/-! The supervision loop of `DeviceManager.run`. Its task is suspended at one of four
awaits; in between, `stop` is called, the connection fails, and the task is cancelled,
which raises at the await it is suspended at. -/
namespace MeshwardenDaemon.Supervisor
open Library

structure Settings where
  reconnectBackoffMax : ℚ

abbrev Conn := ℕ

/-- The await at which `run` is suspended. -/
inductive Phase
  | notStarted
  /-- In `_connect_once`. -/
  | connecting
  | backingOff
  /-- At the `asyncio.wait` for `_stop` and `_conn_failed`. -/
  | watching (mc : Conn)
  /-- In `mc.disconnect()`. -/
  | disconnecting (mc : Conn)
  | ended
  deriving DecidableEq

structure Link where
  mc : Option Conn := none
  connected : Bool := false
  connectedSince : Option ℕ := none
  /-- Ghost: what the connection listeners have been told. -/
  notifications : List Bool := []
  /-- Ghost: the connections that have been `mc`. -/
  current : List Conn := []
  /-- Ghost: the connections on which `disconnect` was called. -/
  disconnects : List Conn := []

structure State where
  phase : Phase
  backoff : ℚ
  connFailed : Bool
  stop : Bool
  connections : ℕ
  /-- The message pump and the contact sync are running. -/
  background : Bool
  link : Link

def init : State where
  phase := .notStarted
  backoff := 1
  connFailed := false
  stop := false
  connections := 0
  background := false
  link := {}

inductive Action
  | start
  /-- `_connect_once` returns None. -/
  | connectFails
  | backoffOver
  /-- `_connect_once` returns a connection, at the time `now`. -/
  | connects (now : ℕ)
  | connFail
  /-- The `asyncio.wait` returns. -/
  | wake
  /-- `mc.disconnect()` returns or raises. -/
  | disconnected
  | stop
  | cancel
  deriving DecidableEq

def State.finish (s : State) : State := { s with phase := .ended, background := false }

def State.loopHead (s : State) : State :=
  if s.stop then s.finish else { s with phase := .connecting }

def Link.connects (l : Link) (mc : Conn) (now : ℕ) : Link where
  mc := some mc
  connected := true
  connectedSince := some now
  notifications := l.notifications ++ [true]
  current := l.current ++ [mc]
  disconnects := l.disconnects

/-- What `run` does before it awaits `mc.disconnect()`. -/
def Link.loses (l : Link) (mc : Conn) : Link :=
  { l with
    connected := false
    connectedSince := none
    notifications := l.notifications ++ [false]
    disconnects := l.disconnects ++ [mc] }

def step (P : Settings) (s : State) : Action → Option State
  | .start => if s.phase = .notStarted then some { s with background := true }.loopHead else none
  | .connectFails =>
    if s.phase = .connecting then some { s with phase := .backingOff } else none
  | .backoffOver =>
    if s.phase = .backingOff then
      some { s with backoff := min (s.backoff * 2) P.reconnectBackoffMax }.loopHead
    else none
  | .connects now =>
    if s.phase = .connecting then
      some { s with
        phase := .watching s.connections, backoff := 1, connFailed := false
        connections := s.connections + 1, link := s.link.connects s.connections now }
    else none
  | .connFail => some { s with connFailed := true }
  | .wake =>
    match s.phase with
    | .watching mc =>
      if s.stop || s.connFailed then
        some { s with phase := .disconnecting mc, link := s.link.loses mc }
      else none
    | _ => none
  | .disconnected =>
    match s.phase with
    | .disconnecting _ => some { s with link := { s.link with mc := none } }.loopHead
    | _ => none
  | .stop => some { s with stop := true }
  | .cancel => if s.phase = .ended then none else some s.finish

/-- The listeners hear True first, and never the same twice in a row. -/
def Alternating (notifications : List Bool) : Prop :=
  notifications.head? ≠ some false ∧ notifications.IsChain (· ≠ ·)

/-- Nothing of a connection is left. -/
structure Clean (l : Link) : Prop where
  last : l.notifications.getLast? ≠ some true
  connected : l.connected = false
  since : l.connectedSince = none
  mc : l.mc = none
  disconnects : ∀ c ∈ l.current, c ∈ l.disconnects

/-- If `run` has ended, it has left nothing behind. -/
def Unwound (s : State) : Prop := s.phase = .ended → Clean s.link

/-- The task is not cancelled while a connection is its `mc`. -/
def CancelsUnconnected (s : State) : Action → Prop
  | .cancel => s.link.mc = none
  | _ => True

instance (s : State) (a : Action) : Decidable (CancelsUnconnected s a) := by
  unfold CancelsUnconnected
  induction a using Action.casesOn <;> infer_instance

def State.Holds (s : State) : Prop :=
  match s.phase with
  | .watching mc => s.link.mc = some mc ∧ s.link.notifications.getLast? = some true ∧
      ∀ c ∈ s.link.current, c = mc ∨ c ∈ s.link.disconnects
  | .disconnecting mc => s.link.mc = some mc ∧ Clean { s.link with mc := none }
  | .ended => s.background = false
  | _ => Clean s.link

structure Supervised (s : State) : Prop where
  alternating : Alternating s.link.notifications
  holds : s.Holds

theorem init_supervised : Supervised init := by
  refine ⟨by simp [Alternating, init], ?_⟩
  constructor <;> simp [init]

section Supervised
variable {P : Settings} {s t : State} {a : Action}

theorem Alternating.concat {notifications : List Bool} (h : Alternating notifications) {b : Bool}
    (last : notifications.getLast?.getD false = !b) : Alternating (notifications ++ [b]) := by
  refine ⟨?_, List.isChain_append.mpr ⟨h.2, List.isChain_singleton _, ?_⟩⟩
  · cases notifications with
    | nil => simp_all
    | cons x rest => simpa using h.1
  · intro x hx y hy
    rw [Option.mem_def] at hx
    obtain rfl : b = y := by simpa using hy
    rw [hx, Option.getD_some] at last
    simp [last]

theorem Clean.lastD {l : Link} (h : Clean l) : l.notifications.getLast?.getD false = false := by
  have last := h.last
  cases told : l.notifications.getLast? with
  | none => rfl
  | some b => simpa [told] using last

theorem Supervised.loopHead (alternating : Alternating s.link.notifications)
    (clean : Clean s.link) : Supervised s.loopHead ∧ Unwound s.loopHead := by
  unfold State.loopHead
  split
  · exact ⟨⟨alternating, rfl⟩, fun _ => clean⟩
  · exact ⟨⟨alternating, clean⟩, by simp [Unwound]⟩

/-- Until `run` is over, it leaves something behind exactly while it has a connection. -/
theorem Supervised.clean_iff (h : Supervised s) (running : s.phase ≠ .ended) :
    Clean s.link ↔ s.link.mc = none := by
  refine ⟨Clean.mc, fun free => ?_⟩
  have holds := h.holds
  unfold State.Holds at holds
  split at holds
  · simp [holds.1] at free
  · simp [holds.1] at free
  · rename_i phase
    exact absurd phase running
  · exact holds

theorem unwound_of_phase {phase : Phase} (at_ : s.phase = phase) (other : phase ≠ .ended) :
    Unwound s := fun ended => absurd (at_.symm.trans ended) other

theorem Supervised.step (h : Supervised s) (hs : Supervisor.step P s a = some t) :
    Supervised t ∧ (Unwound t ↔ Unwound s ∧ CancelsUnconnected s a) := by
  have holds := h.holds
  unfold State.Holds at holds
  cases a with
  | start =>
    simp only [Supervisor.step, Option.ite_none_right_eq_some, Option.some.injEq] at hs
    obtain ⟨phase, rfl⟩ := hs
    simp only [phase] at holds
    obtain ⟨keeps, unwound⟩ :=
      Supervised.loopHead (s := { s with background := true }) h.alternating holds
    exact ⟨keeps, iff_of_true unwound ⟨unwound_of_phase phase (by simp), trivial⟩⟩
  | connectFails =>
    simp only [Supervisor.step, Option.ite_none_right_eq_some, Option.some.injEq] at hs
    obtain ⟨phase, rfl⟩ := hs
    simp only [phase] at holds
    exact ⟨⟨h.alternating, holds⟩,
      iff_of_true (by simp [Unwound]) ⟨unwound_of_phase phase (by simp), trivial⟩⟩
  | backoffOver =>
    simp only [Supervisor.step, Option.ite_none_right_eq_some, Option.some.injEq] at hs
    obtain ⟨phase, rfl⟩ := hs
    simp only [phase] at holds
    obtain ⟨keeps, unwound⟩ := Supervised.loopHead
      (s := { s with backoff := min (s.backoff * 2) P.reconnectBackoffMax }) h.alternating holds
    exact ⟨keeps, iff_of_true unwound ⟨unwound_of_phase phase (by simp), trivial⟩⟩
  | connects now =>
    simp only [Supervisor.step, Option.ite_none_right_eq_some, Option.some.injEq] at hs
    obtain ⟨phase, rfl⟩ := hs
    simp only [phase] at holds
    refine ⟨⟨h.alternating.concat (by rw [holds.lastD]; rfl), ⟨rfl, by simp [Link.connects], ?_⟩⟩,
      iff_of_true (by simp [Unwound]) ⟨unwound_of_phase phase (by simp), trivial⟩⟩
    intro c hc
    rcases List.mem_append.mp hc with old | new
    · exact Or.inr (holds.disconnects c old)
    · exact Or.inl (List.mem_singleton.mp new)
  | wake =>
    simp only [Supervisor.step] at hs
    split at hs
    · rename_i mc phase
      simp only [Option.ite_none_right_eq_some, Option.some.injEq] at hs
      obtain ⟨-, rfl⟩ := hs
      simp only [phase] at holds
      obtain ⟨current, last, disconnects⟩ := holds
      refine ⟨⟨h.alternating.concat (by simp [last]), current, by simp [Link.loses], rfl, rfl, rfl,
        fun c hc => ?_⟩,
        iff_of_true (by simp [Unwound]) ⟨unwound_of_phase phase (by simp), trivial⟩⟩
      rcases disconnects c hc with rfl | done
      · exact List.mem_append_right _ List.mem_cons_self
      · exact List.mem_append_left _ done
    · cases hs
  | disconnected =>
    simp only [Supervisor.step] at hs
    split at hs
    · rename_i mc phase
      cases hs
      simp only [phase] at holds
      obtain ⟨keeps, unwound⟩ := Supervised.loopHead
        (s := { s with link := { s.link with mc := none } }) h.alternating holds.2
      exact ⟨keeps, iff_of_true unwound ⟨unwound_of_phase phase (by simp), trivial⟩⟩
    · cases hs
  | connFail | stop =>
    cases hs
    exact ⟨⟨h.alternating, h.holds⟩, (and_iff_left trivial).symm⟩
  | cancel =>
    simp only [Supervisor.step, Option.ite_none_left_eq_some, Option.some.injEq] at hs
    obtain ⟨running, rfl⟩ := hs
    refine ⟨⟨h.alternating, rfl⟩, ?_⟩
    have unwound : Unwound s := fun ended => absurd ended running
    rw [and_iff_right unwound, CancelsUnconnected, ← h.clean_iff running]
    exact ⟨fun clean => clean rfl, fun clean _ => clean⟩

end Supervised

/-- In every run the listeners hear alternating notifications, and once `run` has ended
nothing of a connection is left exactly if it was not cancelled while it had one. -/
theorem supervisor_unwinds_iff (P : Settings) (acts : List Action) (s : State)
    (hrun : Runs.run (step P) init acts = some s) :
    Alternating s.link.notifications ∧
      ((s.phase = .ended → Clean s.link) ↔ Runs.Along (step P) CancelsUnconnected init acts) := by
  have supervised : Supervised s :=
    Runs.reachable (fun _ _ _ h hs => (h.step hs).1) init_supervised hrun
  refine ⟨supervised.alternating, ?_⟩
  have unwinds : Unwound s ↔ Unwound init ∧ Runs.Along (step P) CancelsUnconnected init acts :=
    Runs.run_iff_along (fun _ _ _ h hs => (h.step hs).1) (fun _ _ _ h hs => (h.step hs).2)
      init_supervised hrun
  exact unwinds.trans (and_iff_right (by simp [Unwound, init]))

theorem background_ends (P : Settings) (acts : List Action) (s : State)
    (hrun : Runs.run (step P) init acts = some s) (ended : s.phase = .ended) :
    s.background = false := by
  have supervised : Supervised s :=
    Runs.reachable (fun _ _ _ h hs => (h.step hs).1) init_supervised hrun
  have holds := supervised.holds
  unfold State.Holds at holds
  simpa only [ended] using holds

def stopped : List Action :=
  [.start, .connectFails, .backoffOver, .connects 10, .connFail, .wake, .disconnected,
    .connects 20, .stop, .wake, .disconnected]

theorem supervisor_unwinds_stopped :
    ∃ s, Runs.run (step ⟨60⟩) init stopped = some s ∧ Clean s.link := by
  have got : (Runs.run (step ⟨60⟩) init stopped).map State.phase = some .ended := by
    decide +kernel
  obtain ⟨s, hs, ended⟩ := Option.map_eq_some_iff.mp got
  exact ⟨s, hs, (supervisor_unwinds_iff ⟨60⟩ stopped s hs).2.mpr (by decide +kernel) ended⟩

def shutDown : List Action := [.start, .connects 10, .stop, .cancel]

theorem shutdown_keeps_connection :
    ¬ ∀ s, Runs.run (step ⟨60⟩) init shutDown = some s → s.phase = .ended → Clean s.link := by
  intro supposed
  have got : (Runs.run (step ⟨60⟩) init shutDown).map (fun s => (s.phase, s.link.mc)) =
      some (.ended, some 0) := by
    decide +kernel
  simp only [Option.map_eq_some_iff, Prod.mk.injEq] at got
  obtain ⟨s, hs, ended, mc⟩ := got
  simp [(supposed s hs ended).mc] at mc

end MeshwardenDaemon.Supervisor
