import MeshwardenDaemon.Supervisor
import Mathlib.Algebra.Order.Ring.Rat
import Mathlib.Tactic.Linarith

/-! How long the supervisor waits between its attempts, and how it ends when it is asked to:
the wait doubles with every failure up to its bound and starts again with every connection, and
`stop` ends `run` after at most three more awaits, with no attempt begun after it. -/
namespace MeshwardenDaemon.Supervisor
open Library

def failures (acts : List Action) : ℕ :=
  acts.foldl (fun n a => match a with
    | .connectFails => n + 1
    | .connects _ => 0
    | _ => n) 0

def doubled (P : Settings) (n : ℕ) : ℚ := if n = 0 then 1 else min (2 ^ n) P.reconnectBackoffMax

/-- What `backoff` is at each await. -/
def Paced (P : Settings) (acts : List Action) (s : State) : Prop :=
  match s.phase with
  | .ended => True
  | .backingOff => ∃ n, failures acts = n + 1 ∧ s.backoff = doubled P n
  | _ => s.backoff = doubled P (failures acts)

section backoff
variable {P : Settings} {acts : List Action} {s t : State} {a : Action}

theorem failures_concat : failures (acts ++ [a]) =
    match a with
    | .connectFails => failures acts + 1
    | .connects _ => 0
    | _ => failures acts := by
  rw [failures, List.foldl_append]
  rfl

theorem doubled_succ (nonneg : 0 ≤ P.reconnectBackoffMax) (n : ℕ) :
    min (doubled P n * 2) P.reconnectBackoffMax = doubled P (n + 1) := by
  rw [doubled, doubled, if_neg (Nat.succ_ne_zero n)]
  split
  · rename_i first
    subst first
    norm_num
  · rw [pow_succ]
    rcases le_total ((2 : ℚ) ^ n) P.reconnectBackoffMax with below | above
    · rw [min_eq_left below]
    · have higher : P.reconnectBackoffMax ≤ (2 : ℚ) ^ n * 2 := by linarith
      rw [min_eq_right above, min_eq_right higher]
      exact min_eq_right (by linarith)

theorem paced_loopHead (paced : s.backoff = doubled P (failures acts)) :
    Paced P acts s.loopHead := by
  unfold State.loopHead
  split
  · trivial
  · exact paced

theorem Paced.step (nonneg : 0 ≤ P.reconnectBackoffMax) (h : Paced P acts s)
    (hs : Supervisor.step P s a = some t) : Paced P (acts ++ [a]) t := by
  unfold Paced at h
  cases a with
  | start =>
    simp only [Supervisor.step, Option.ite_none_right_eq_some, Option.some.injEq] at hs
    obtain ⟨phase, rfl⟩ := hs
    simp only [phase] at h
    refine paced_loopHead (s := { s with background := true }) ?_
    rwa [failures_concat]
  | connectFails =>
    simp only [Supervisor.step, Option.ite_none_right_eq_some, Option.some.injEq] at hs
    obtain ⟨phase, rfl⟩ := hs
    simp only [phase] at h
    exact ⟨failures acts, failures_concat, h⟩
  | backoffOver =>
    simp only [Supervisor.step, Option.ite_none_right_eq_some, Option.some.injEq] at hs
    obtain ⟨phase, rfl⟩ := hs
    simp only [phase] at h
    obtain ⟨n, count, backoff⟩ := h
    refine paced_loopHead ?_
    rw [failures_concat, count, backoff]
    exact doubled_succ nonneg n
  | connects now =>
    simp only [Supervisor.step, Option.ite_none_right_eq_some, Option.some.injEq] at hs
    obtain ⟨phase, rfl⟩ := hs
    simp only [Paced, failures_concat]
    rfl
  | wake =>
    simp only [Supervisor.step] at hs
    split at hs
    · rename_i mc phase
      simp only [Option.ite_none_right_eq_some, Option.some.injEq] at hs
      obtain ⟨-, rfl⟩ := hs
      simp only [phase] at h
      simpa only [Paced, failures_concat] using h
    · cases hs
  | disconnected =>
    simp only [Supervisor.step] at hs
    split at hs
    · rename_i mc phase
      cases hs
      simp only [phase] at h
      refine paced_loopHead (s := { s with link := { s.link with mc := none } }) ?_
      rwa [failures_concat]
    · cases hs
  | connFail | stop =>
    cases hs
    simpa only [Paced, failures_concat] using h
  | cancel =>
    simp only [Supervisor.step, Option.ite_none_left_eq_some, Option.some.injEq] at hs
    obtain ⟨-, rfl⟩ := hs
    trivial

end backoff

/-- The steps of `run` itself. -/
def Own : Action → Prop
  | .connFail | .stop | .cancel => False
  | _ => True

instance (a : Action) : Decidable (Own a) := by
  unfold Own
  cases a <;> infer_instance

def Phase.left : Phase → ℕ
  | .connecting => 3
  | .watching _ => 2
  | .notStarted | .backingOff | .disconnecting _ => 1
  | .ended => 0

/-- The connections that there are, with the one that is being made. -/
def State.begun (s : State) : ℕ := s.connections + if s.phase = .connecting then 1 else 0

/-- The step leads into no connection attempt but the one that is under way. -/
def BeginsNone (P : Settings) (s : State) (a : Action) : Prop :=
  ∀ t ∈ step P s a, t.phase = .connecting → s.phase = .connecting

section stop
variable {P : Settings} {s t : State} {a : Action}

structure Winding (s : State) (a : Action) (t : State) : Prop where
  stopped : t.stop = true
  left : t.phase.left + (if Own a then 1 else 0) ≤ s.phase.left
  begun : t.begun ≤ s.begun
  attempt : t.phase = .connecting → s.phase = .connecting

theorem stopped_loopHead (stopped : s.stop = true) (left : 0 < s.phase.left) (own : Own a) :
    Winding s a s.loopHead := by
  rw [show s.loopHead = s.finish from if_pos stopped]
  refine ⟨stopped, ?_, Nat.le_add_right _ _, nofun⟩
  rw [if_pos own]
  exact left

theorem step_stopped (stopped : s.stop = true) (uncancelled : a ≠ .cancel)
    (hs : Supervisor.step P s a = some t) : Winding s a t := by
  cases a with
  | start =>
    simp only [Supervisor.step, Option.ite_none_right_eq_some, Option.some.injEq] at hs
    obtain ⟨phase, rfl⟩ := hs
    obtain ⟨stop, left, begun, attempt⟩ := stopped_loopHead (s := { s with background := true })
      (a := .start) stopped (by simp [phase, Phase.left]) trivial
    exact ⟨stop, left, begun, attempt⟩
  | backoffOver =>
    simp only [Supervisor.step, Option.ite_none_right_eq_some, Option.some.injEq] at hs
    obtain ⟨phase, rfl⟩ := hs
    obtain ⟨stop, left, begun, attempt⟩ := stopped_loopHead
      (s := { s with backoff := min (s.backoff * 2) P.reconnectBackoffMax }) (a := .backoffOver)
      stopped (by simp [phase, Phase.left]) trivial
    exact ⟨stop, left, begun, attempt⟩
  | connectFails | connects =>
    simp only [Supervisor.step, Option.ite_none_right_eq_some, Option.some.injEq] at hs
    obtain ⟨phase, rfl⟩ := hs
    refine ⟨stopped, by simp [phase, Phase.left, Own], by simp [State.begun, phase], ?_⟩
    intro connecting
    cases connecting
  | wake =>
    simp only [Supervisor.step] at hs
    split at hs
    · rename_i mc phase
      simp only [Option.ite_none_right_eq_some, Option.some.injEq] at hs
      obtain ⟨-, rfl⟩ := hs
      refine ⟨stopped, by simp [phase, Phase.left, Own], by simp [State.begun], ?_⟩
      intro connecting
      cases connecting
    · cases hs
  | disconnected =>
    simp only [Supervisor.step] at hs
    split at hs
    · rename_i mc phase
      cases hs
      obtain ⟨stop, left, begun, attempt⟩ := stopped_loopHead
        (s := { s with link := { s.link with mc := none } }) (a := .disconnected) stopped
        (by simp [phase, Phase.left]) trivial
      exact ⟨stop, left, begun, attempt⟩
    · cases hs
  | connFail =>
    cases hs
    exact ⟨stopped, by simp [Own], le_rfl, id⟩
  | stop =>
    cases hs
    exact ⟨rfl, by simp [Own], le_rfl, id⟩
  | cancel => exact absurd rfl uncancelled

theorem ended_of_rest (stopped : s.stop = true)
    (rest : ∀ a, Own a → Supervisor.step P s a = none) : s.phase = .ended := by
  cases phase : s.phase with
  | ended => rfl
  | notStarted => simpa [Supervisor.step, phase] using rest .start trivial
  | connecting => simpa [Supervisor.step, phase] using rest .connectFails trivial
  | backingOff => simpa [Supervisor.step, phase] using rest .backoffOver trivial
  | watching mc => simpa [Supervisor.step, phase, stopped] using rest .wake trivial
  | disconnecting mc => simpa [Supervisor.step, phase] using rest .disconnected trivial

end stop

/-- Wherever `stop` finds `run`, and whether or not the connection fails meanwhile: at most
three of its awaits are left and it begins no connection attempt, so that at most one more
connection comes of the one under way; when none of its steps is left it has ended, and then it
has left nothing of a connection behind. -/
theorem stop_ends_run (P : Settings) (acts : List Action) (s : State)
    (hrun : Runs.run (step P) init acts = some s) (stopped : s.stop = true)
    (running : s.phase ≠ .ended) (more : List Action) (t : State)
    (hmore : Runs.run (step P) s more = some t) (uncancelled : .cancel ∉ more) :
    more.countP (fun a => Own a) ≤ 3 ∧ Runs.Along (step P) (BeginsNone P) s more ∧
      t.connections ≤ s.begun ∧
      ((∀ a, Own a → step P t a = none) → t.phase = .ended) ∧
      (t.phase = .ended → Clean t.link) := by
  have along : Runs.Along (step P) (fun _ a => a ≠ .cancel) s more :=
    Runs.along_of_forall (fun _ ha => ne_of_mem_of_not_mem ha uncancelled) s
  have supervised : Supervised s :=
    Runs.reachable (fun _ _ _ h hs => (h.step hs).1) init_supervised hrun
  have short := Runs.countP_le (I := fun s => s.stop = true) (fun a => Own a)
    (fun s => s.phase.left)
    (fun s a t h uncancelled hs =>
      ⟨(step_stopped h uncancelled hs).stopped, by
        simpa using (step_stopped h uncancelled hs).left⟩) stopped along hmore
  have few : s.phase.left ≤ 3 := by cases s.phase <;> simp [Phase.left]
  have begins : Runs.Along (step P) (BeginsNone P) s more := by
    refine Runs.along_of_step (I := fun s => s.stop = true) (fun u a v h uncancelled hs => ?_)
      stopped along hmore
    have winding := step_stopped h uncancelled hs
    refine ⟨winding.stopped, fun w hw => ?_⟩
    rw [Option.mem_def, hs, Option.some.injEq] at hw
    exact hw ▸ winding.attempt
  have kept : t.stop = true ∧ t.begun ≤ s.begun := by
    refine Runs.invariant (I := fun u => u.stop = true ∧ u.begun ≤ s.begun)
      (fun u a v h uncancelled hs => ?_) ⟨stopped, le_rfl⟩ along hmore
    have winding := step_stopped h.1 uncancelled hs
    exact ⟨winding.stopped, winding.begun.trans h.2⟩
  have unwound : Supervised t ∧ Unwound t := by
    refine Runs.invariant (I := fun u => Supervised u ∧ Unwound u)
      (fun u a v h uncancelled hs => ?_) ⟨supervised, fun ended => absurd ended running⟩
      along hmore
    obtain ⟨keeps, unwinds⟩ := h.1.step hs
    refine ⟨keeps, unwinds.mpr ⟨h.2, ?_⟩⟩
    cases a with
    | cancel => exact absurd rfl uncancelled
    | _ => trivial
  exact ⟨by omega, begins, (Nat.le_add_right _ _).trans kept.2, ended_of_rest kept.1, unwound.2⟩

/-- `stop` comes while an attempt is under way, which succeeds and then fails. -/
theorem stop_ends_run_connecting : ∃ s t,
    Runs.run (step ⟨60⟩) init [.start, .connectFails, .backoffOver, .stop] = some s ∧
      Runs.run (step ⟨60⟩) s [.connects 20, .connFail, .wake, .disconnected] = some t ∧
      t.connections = 1 ∧ Clean t.link := by
  have got : (Runs.run (step ⟨60⟩) init [.start, .connectFails, .backoffOver, .stop]).bind (fun s =>
      (Runs.run (step ⟨60⟩) s [.connects 20, .connFail, .wake, .disconnected]).map fun t =>
        (s.stop, s.phase, t.phase, t.connections)) = some (true, .connecting, .ended, 1) := by
    decide +kernel
  simp only [Option.bind_eq_some_iff, Option.map_eq_some_iff, Prod.mk.injEq] at got
  obtain ⟨s, hs, t, ht, stopped, phase, ended, connections⟩ := got
  have law := stop_ends_run ⟨60⟩ _ s hs stopped (by simp [phase]) _ t ht (by decide)
  exact ⟨s, t, hs, ht, connections, law.2.2.2.2 ended⟩

end MeshwardenDaemon.Supervisor
