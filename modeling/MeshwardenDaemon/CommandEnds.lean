import MeshwardenDaemon.Attribution

/-! How a call can end. A step either makes the raw command in the slot return,
which is the one place where the cache is written, or it stores nothing. -/
namespace MeshwardenDaemon.CommandSlot
open Protocol ResponseCache Library

def returning (P : Settings) (s : State) : Action → Option CallId
  | .sendReturns i =>
    if code (s.calls i).frame = P.codes.value .reboot then some i else none
  | .receive i | .forwarded i | .libraryReturns i => some i
  | _ => none

structure Finishes (P : Settings) (s : State) (a : Action) (i : CallId) (d : Call) : Prop where
  phase : (s.calls i).phase.inSlot = true
  raw : (s.calls i).origin.isLibrary = false
  origin : d.origin = (s.calls i).origin
  frame : d.frame = (s.calls i).frame
  slot : d.slot = (s.calls i).slot
  action : returning P s a = some i
  normal : a.isFail = false

structure Quiet (P : Settings) (s : State) (a : Action) (t : State) : Prop where
  clock : s.clock ≤ t.clock
  slots : s.slots ≤ t.slots
  ttl : t.cache.ttl = s.cache.ttl
  kept : ∀ k e, t.cache.entries.lookup k = some e → s.cache.entries.lookup k = some e
  ended : ∀ j, (t.calls j).phase.ended = true → t.calls j = s.calls j ∨
    ((s.calls j).phase.inSlot = false ∧ ∃ e, (t.calls j).phase = .raised e) ∨
    (∃ e, a = .fail j e ∧ t = s.abandon j e) ∨
    (returning P s a = some j ∧ (s.calls j).origin.isLibrary = true ∧
      (s.calls j).phase.inSlot = true ∧ t.calls j = { s.calls j with phase := .returned [] })
  stable : ∀ j, (s.calls j).phase.ended = true → t.calls j = s.calls j
  taking : t.commandLock ≠ none → s.commandLock = none ∧ t.slots = s.slots + 1 ∨
    s.commandLock ≠ none ∧ t.slots = s.slots

theorem update_of_ended {s : State} {i j : CallId} (live : (s.calls i).phase.ended = false)
    (d : Call) (hj : (s.calls j).phase.ended = true) :
    Function.update s.calls i d j = s.calls j := by
  have hji : j ≠ i := by
    rintro rfl
    simp [live] at hj
  exact Function.update_of_ne hji _ _

theorem quiet_update {P : Settings} {s t : State} {a : Action} {i : CallId} {d : Call}
    (before : (s.calls i).phase.ended = false)
    (calls : t.calls = Function.update s.calls i d)
    (after : d.phase.ended = true →
      ((s.calls i).phase.inSlot = false ∧ ∃ e, d.phase = .raised e) ∨
      (∃ e, a = .fail i e ∧ t = s.abandon i e) ∨
      (returning P s a = some i ∧ (s.calls i).origin.isLibrary = true ∧
        (s.calls i).phase.inSlot = true ∧ d = { s.calls i with phase := .returned [] }))
    (clock : s.clock ≤ t.clock) (slots : s.slots ≤ t.slots) (ttl : t.cache.ttl = s.cache.ttl)
    (kept : ∀ k e, t.cache.entries.lookup k = some e → s.cache.entries.lookup k = some e)
    (taking : t.commandLock ≠ none → s.commandLock = none ∧ t.slots = s.slots + 1 ∨
      s.commandLock ≠ none ∧ t.slots = s.slots) : Quiet P s a t where
  clock := clock
  slots := slots
  ttl := ttl
  kept := kept
  ended j hj := by
    by_cases hji : j = i
    · subst hji
      simp only [calls, Function.update_self] at hj ⊢
      exact Or.inr (after hj)
    · exact Or.inl (by rw [calls, Function.update_of_ne hji])
  stable j hj := by
    rw [calls]
    exact update_of_ended before d hj
  taking := taking

theorem quiet_setCall {P : Settings} {s t : State} {a : Action} {i : CallId} {d : Call}
    (before : (s.calls i).phase.ended = false) (after : d.phase.ended = false)
    (calls : t.calls = Function.update s.calls i d) (clock : s.clock ≤ t.clock)
    (cache : t.cache = s.cache) (lock : t.commandLock = s.commandLock)
    (slots : t.slots = s.slots) : Quiet P s a t := by
  refine quiet_update before calls ?_ clock slots.ge ?_ ?_ ?_
  · intro ended
    rw [after] at ended
    cases ended
  · rw [cache]
  · rw [cache]
    exact fun _ _ => id
  · exact fun hlock => Or.inr ⟨lock ▸ hlock, slots⟩

theorem quiet_same {P : Settings} {s t : State} {a : Action} (calls : t.calls = s.calls)
    (clock : s.clock ≤ t.clock) (cache : t.cache = s.cache)
    (lock : t.commandLock = s.commandLock) (slots : t.slots = s.slots) : Quiet P s a t where
  clock := clock
  slots := slots.ge
  ttl := by rw [cache]
  kept k e := by rw [cache]; exact id
  ended j _ := Or.inl (by rw [calls])
  stable j _ := by rw [calls]
  taking hlock := Or.inr ⟨lock ▸ hlock, slots⟩

theorem Phase.not_ended_of_inSlot {p : Phase} (h : p.inSlot = true) : p.ended = false := by
  cases p <;> simp_all [Phase.inSlot, Phase.ended]

theorem raw_of_phase {s : State} (ok : SlotOk s) {i : CallId}
    (slot : (s.calls i).phase.inSlot = true) (other : (s.calls i).phase ≠ .running) :
    (s.calls i).origin.isLibrary = false := by
  simpa using (ok.running i slot).not.mp other

theorem Move.finishes_or_quiet {P : Settings} {s t : State} {a : Action} (ok : SlotOk s)
    (m : Move P s a t) :
    (∃ i d, Finishes P s a i d ∧ t = s.finish P i d) ∨ Quiet P s a t := by
  cases m with
  | environment later link =>
    exact Or.inr (quiet_same rfl later rfl rfl rfl)
  | @outside a i d cache proxied hits out ttl kept =>
    refine Or.inr (quiet_update out.live rfl (fun ended => ?_) le_rfl le_rfl ttl kept
      fun h => Or.inr ⟨h, rfl⟩)
    refine Or.inl ⟨out.before, ?_⟩
    cases hd : d.phase with
    | raised e => exact ⟨e, rfl⟩
    | returned fs => exact absurd hd (out.not_returned fs)
    | _ => simp [hd, Phase.ended] at ended
  | @take i mc free phase =>
    refine Or.inr (quiet_update (by simp [phase, Phase.ended]) rfl (fun ended => ?_) le_rfl
      (Nat.le_succ _) rfl (fun _ _ h => h) fun _ => Or.inl ⟨free, rfl⟩)
    cases library : (s.calls i).origin.isLibrary <;> simp [library, Phase.ended] at ended
  | transmit phase unsent conn =>
    exact Or.inr (quiet_setCall (by simp [phase, Phase.ended]) (by simp [phase, Phase.ended])
      rfl le_rfl rfl rfl rfl)
  | sendReturns phase sent expects =>
    exact Or.inr (quiet_setCall (by simp [phase, Phase.ended]) rfl rfl le_rfl rfl rfl rfl)
  | @reboots i phase reboot =>
    have slot : (s.calls i).phase.inSlot = true := by simp [phase, Phase.inSlot]
    have raw := raw_of_phase ok slot (by simp [phase])
    refine Or.inl ⟨i, s.calls i, ?_, rfl⟩
    exact ⟨slot, raw, rfl, rfl, rfl, by simp [returning, reboot], rfl⟩
  | hands phase queue proxy =>
    exact Or.inr (quiet_setCall (by simp [phase, Phase.ended]) rfl rfl le_rfl rfl rfl rfl)
  | collects phase queue proxy more =>
    exact Or.inr (quiet_setCall (by simp [phase, Phase.ended]) rfl rfl le_rfl rfl rfl rfl)
  | @completes i r rest phase queue proxy last =>
    have slot : (s.calls i).phase.inSlot = true := by simp [phase, Phase.inSlot]
    have raw := raw_of_phase ok slot (by simp [phase])
    refine Or.inl ⟨i, _, ?_, rfl⟩
    exact ⟨slot, raw, rfl, rfl, rfl, rfl, rfl⟩
  | streams phase more =>
    exact Or.inr (quiet_setCall (by simp [phase, Phase.ended]) rfl rfl le_rfl rfl rfl rfl)
  | @delivers i resp phase last =>
    have slot : (s.calls i).phase.inSlot = true := by simp [phase, Phase.inSlot]
    have raw := raw_of_phase ok slot (by simp [phase])
    refine Or.inl ⟨i, _, ?_, rfl⟩
    exact ⟨slot, raw, rfl, rfl, rfl, rfl, rfl⟩
  | librarySend phase => exact Or.inr (quiet_same rfl le_rfl rfl rfl rfl)
  | @libraryReturns i phase settled =>
    have slot : (s.calls i).phase.inSlot = true := by simp [phase, Phase.inSlot]
    have library := (ok.running i slot).mp phase
    exact Or.inr (quiet_update (by simp [phase, Phase.ended]) rfl
      (fun _ => Or.inr (Or.inr ⟨rfl, library, slot, rfl⟩)) le_rfl le_rfl rfl (fun _ _ h => h)
      fun h => absurd rfl h)
  | @abandons i e phase =>
    refine Or.inr (quiet_update (Phase.not_ended_of_inSlot phase) rfl
      (fun _ => Or.inr (Or.inl ⟨e, rfl, rfl⟩)) le_rfl le_rfl rfl (fun _ _ h => h) ?_)
    simp [State.abandon, phase]
  | answer inbox answers => exact Or.inr (quiet_same rfl le_rfl rfl rfl rfl)
  | @dispatch r rest outbox =>
    rcases dispatchFrame_cases { s with outbox := rest } r with same | ⟨q, queue, -, queued⟩
    · rw [same]
      exact Or.inr (quiet_same rfl le_rfl rfl rfl rfl)
    · have slot := (ok.holder q).mpr ((ok.owner q).mp queue).1
      have live := Phase.not_ended_of_inSlot slot
      rw [queued]
      refine Or.inr (quiet_setCall live ?_ rfl le_rfl rfl rfl rfl)
      exact live
  | push => exact Or.inr (quiet_same rfl le_rfl rfl rfl rfl)

end MeshwardenDaemon.CommandSlot
