import MeshwardenDaemon.CommandSlotMoves

/-! Mutual exclusion: exactly one call is inside the command slot, `_raw_queue`
belongs to it when it is a raw command, and slots are numbered in the order in
which they are taken. Holds in every reachable state, failures included. -/
namespace MeshwardenDaemon.CommandSlot
open Protocol ResponseCache Library

@[simp] theorem setCall_calls_self (s : State) (i : CallId) (c : Call) :
    (s.setCall i c).calls i = c := by simp [State.setCall]

theorem setCall_calls_ne {i j : CallId} (h : j ≠ i) (s : State) (c : Call) :
    (s.setCall i c).calls j = s.calls j := by simp [State.setCall, h]

@[simp] theorem setCall_commandLock (s : State) (i : CallId) (c : Call) :
    (s.setCall i c).commandLock = s.commandLock := rfl

@[simp] theorem setCall_rawQueue (s : State) (i : CallId) (c : Call) :
    (s.setCall i c).rawQueue = s.rawQueue := rfl

@[simp] theorem setCall_slots (s : State) (i : CallId) (c : Call) :
    (s.setCall i c).slots = s.slots := rfl

@[simp] theorem setCall_inbox (s : State) (i : CallId) (c : Call) :
    (s.setCall i c).inbox = s.inbox := rfl

@[simp] theorem setCall_outbox (s : State) (i : CallId) (c : Call) :
    (s.setCall i c).outbox = s.outbox := rfl

@[simp] theorem setCall_reply (s : State) (i : CallId) (c : Call) :
    (s.setCall i c).reply = s.reply := rfl

structure SlotOk (s : State) : Prop where
  holder : ∀ i, (s.calls i).phase.inSlot = true ↔ s.commandLock = some i
  owner : ∀ i, s.rawQueue = some i ↔
    s.commandLock = some i ∧ (s.calls i).origin.isLibrary = false
  running : ∀ i, (s.calls i).phase.inSlot = true →
    ((s.calls i).phase = .running ↔ (s.calls i).origin.isLibrary = true)
  slot_le : ∀ i, (s.calls i).slot ≤ s.slots
  slot_top : ∀ i, s.commandLock = some i →
    (s.calls i).slot = s.slots ∧ ∀ j, j ≠ i → (s.calls j).slot < s.slots

theorem init_slotOk (P : Settings) : SlotOk (init P) := by
  constructor <;> simp [init, Phase.inSlot]

theorem SlotOk.lock_of_phase {s : State} (h : SlotOk s) {i : CallId} {p : Phase}
    (hp : (s.calls i).phase = p) (hin : p.inSlot = true) : s.commandLock = some i :=
  (h.holder i).mp (by rw [hp, hin])

theorem SlotOk.congr {s t : State} (h : SlotOk s) (lock : t.commandLock = s.commandLock)
    (queue : t.rawQueue = s.rawQueue) (calls : t.calls = s.calls)
    (slots : t.slots = s.slots) : SlotOk t where
  holder := by simpa only [lock, calls] using h.holder
  owner := by simpa only [lock, queue, calls] using h.owner
  running := by simpa only [calls] using h.running
  slot_le := by simpa only [calls, slots] using h.slot_le
  slot_top := by simpa only [lock, calls, slots] using h.slot_top

theorem SlotOk.setCall {s : State} (h : SlotOk s) {i : CallId} {d : Call}
    (phase : d.phase.inSlot = (s.calls i).phase.inSlot)
    (slot : d.slot = (s.calls i).slot)
    (origin : (s.calls i).phase.inSlot = true → d.origin = (s.calls i).origin ∧
      (d.phase = .running ↔ (s.calls i).phase = .running)) :
    SlotOk (s.setCall i d) where
  holder j := by
    by_cases hj : j = i
    · subst hj
      simpa [phase] using h.holder j
    · simpa [setCall_calls_ne hj] using h.holder j
  owner j := by
    by_cases hj : j = i
    · subst hj
      simp only [setCall_rawQueue, setCall_commandLock, setCall_calls_self, h.owner j]
      refine and_congr_right fun lock => ?_
      rw [(origin ((h.holder j).mpr lock)).1]
    · simpa [setCall_calls_ne hj] using h.owner j
  running j := by
    by_cases hj : j = i
    · subst hj
      simp only [setCall_calls_self, phase]
      intro hin
      rw [(origin hin).1, (origin hin).2]
      exact h.running j hin
    · simpa [setCall_calls_ne hj] using h.running j
  slot_le j := by
    by_cases hj : j = i
    · subst hj
      simpa [slot] using h.slot_le j
    · simpa [setCall_calls_ne hj] using h.slot_le j
  slot_top j lock := by
    have slots : ∀ k, ((s.setCall i d).calls k).slot = (s.calls k).slot := by
      intro k
      by_cases hk : k = i
      · subst hk
        simpa using slot
      · simp [setCall_calls_ne hk]
    simpa only [slots, setCall_slots] using h.slot_top j lock

theorem SlotOk.release {s t : State} (h : SlotOk s) {i : CallId} {d : Call}
    (lock : s.commandLock = some i) (freed : t.commandLock = none) (queue : t.rawQueue = none)
    (slots : t.slots = s.slots) (calls : t.calls = Function.update s.calls i d)
    (phase : d.phase.inSlot = false) (slot : d.slot = (s.calls i).slot) : SlotOk t where
  holder j := by
    rw [freed, calls]
    by_cases hj : j = i
    · subst hj
      simp [phase]
    · rw [Function.update_of_ne hj, h.holder j, lock]
      simp [Ne.symm hj]
  owner j := by simp [freed, queue]
  running j := by
    rw [calls]
    by_cases hj : j = i
    · subst hj
      simp [phase]
    · simpa [hj] using h.running j
  slot_le j := by
    rw [calls, slots]
    by_cases hj : j = i
    · subst hj
      simpa [slot] using h.slot_le j
    · simpa [hj] using h.slot_le j
  slot_top j := by simp [freed]

theorem SlotOk.take {s : State} (h : SlotOk s) {i : CallId} {mc : Conn}
    (free : s.commandLock = none) : SlotOk (s.takeSlot i mc) := by
  have idle : ∀ j, (s.calls j).phase.inSlot = false := by
    intro j
    rw [← Bool.not_eq_true, h.holder j, free]
    exact nofun
  have noQueue : s.rawQueue = none := by
    rw [Option.eq_none_iff_forall_ne_some]
    intro j hj
    simpa [free] using (h.owner j).mp hj
  refine ⟨?_, ?_, ?_, ?_, ?_⟩
  · intro j
    by_cases hj : j = i
    · subst hj
      cases lib : (s.calls j).origin.isLibrary <;>
        simp [State.takeSlot, lib, Phase.inSlot]
    · simp [State.takeSlot, setCall_calls_ne hj, idle j, Ne.symm hj]
  · intro j
    by_cases hj : j = i
    · subst hj
      cases lib : (s.calls j).origin.isLibrary <;> simp [State.takeSlot, lib, noQueue]
    · cases lib : (s.calls i).origin.isLibrary <;>
        simp [State.takeSlot, lib, noQueue, Ne.symm hj]
  · intro j
    by_cases hj : j = i
    · subst hj
      cases lib : (s.calls j).origin.isLibrary <;> simp [State.takeSlot, lib]
    · simp [State.takeSlot, setCall_calls_ne hj, idle j]
  · intro j
    by_cases hj : j = i
    · subst hj
      simp [State.takeSlot]
    · have := h.slot_le j
      simp [State.takeSlot, setCall_calls_ne hj]
      omega
  · intro j lock
    obtain rfl : i = j := by simpa [State.takeSlot] using lock
    refine ⟨by simp [State.takeSlot], fun k hk => ?_⟩
    have := h.slot_le k
    simp [State.takeSlot, setCall_calls_ne hk]
    omega

theorem SlotOk.dispatchFrame {s : State} (h : SlotOk s) (r : Rx) :
    SlotOk (s.dispatchFrame r) := by
  rcases dispatchFrame_cases s r with same | ⟨q, -, -, queued⟩
  · rw [same]
    exact h
  · rw [queued]
    exact h.setCall rfl rfl fun _ => ⟨rfl, Iff.rfl⟩

theorem SlotOk.queue_of_library {s : State} (h : SlotOk s) {i : CallId}
    (lock : s.commandLock = some i) (library : (s.calls i).origin.isLibrary = true) :
    s.rawQueue = none := by
  rw [Option.eq_none_iff_forall_ne_some]
  intro j hj
  obtain ⟨hlock, hraw⟩ := (h.owner j).mp hj
  obtain rfl : i = j := Option.some.inj (lock.symm.trans hlock)
  rw [library] at hraw
  exact absurd hraw (by decide)

theorem SlotOk.move {P : Settings} {s t : State} {a : Action} (h : SlotOk s)
    (m : Move P s a t) : SlotOk t := by
  cases m with
  | environment => exact h.congr rfl rfl rfl rfl
  | outside cache proxied hits out ttl kept =>
    refine SlotOk.setCall ?_ ?_ out.slot ?_
    · exact h.congr rfl rfl rfl rfl
    · exact out.after.trans out.before.symm
    · intro hin
      exact absurd out.before (by simp [hin])
  | take free phase => exact h.take free
  | transmit phase unsent conn =>
    refine SlotOk.setCall ?_ rfl rfl fun _ => ⟨rfl, Iff.rfl⟩
    exact h.congr rfl rfl rfl rfl
  | sendReturns phase sent expects =>
    exact h.setCall (by simp [phase, Phase.inSlot]) rfl fun _ => ⟨rfl, by simp [phase]⟩
  | reboots phase reboot =>
    exact h.release (h.lock_of_phase phase rfl) rfl rfl rfl rfl rfl rfl
  | hands phase queue proxy =>
    exact h.setCall (by simp [phase, Phase.inSlot]) rfl fun _ => ⟨rfl, by simp [phase]⟩
  | collects phase queue raw more =>
    exact h.setCall (by simp [phase, Phase.inSlot]) rfl fun _ => ⟨rfl, by simp [phase]⟩
  | completes phase queue raw last =>
    exact h.release (h.lock_of_phase phase rfl) rfl rfl rfl rfl rfl rfl
  | streams phase more =>
    exact h.setCall (by simp [phase, Phase.inSlot]) rfl fun _ => ⟨rfl, by simp [phase]⟩
  | delivers phase last =>
    exact h.release (h.lock_of_phase phase rfl) rfl rfl rfl rfl rfl rfl
  | librarySend phase => exact h.congr rfl rfl rfl rfl
  | @libraryReturns i phase settled =>
    have lock := h.lock_of_phase phase rfl
    have library := (h.running i (by simp [phase, Phase.inSlot])).mp phase
    exact h.release lock rfl (h.queue_of_library lock library) rfl rfl rfl rfl
  | @abandons i e phase =>
    have lock := (h.holder i).mp phase
    refine h.release lock ?_ ?_ rfl rfl rfl rfl
    · simp [State.abandon, phase]
    · cases library : (s.calls i).origin.isLibrary with
      | true => simpa [State.abandon, phase, library] using h.queue_of_library lock library
      | false => simp [State.abandon, phase, library]
  | answer inbox answers => exact h.congr rfl rfl rfl rfl
  | dispatch outbox =>
    refine SlotOk.dispatchFrame ?_ _
    exact h.congr rfl rfl rfl rfl
  | push => exact h

theorem SlotOk.step {P : Settings} {s t : State} {a : Action} (h : SlotOk s)
    (hs : CommandSlot.step P s a = some t) : SlotOk t :=
  h.move (move_of_step hs)

end MeshwardenDaemon.CommandSlot
