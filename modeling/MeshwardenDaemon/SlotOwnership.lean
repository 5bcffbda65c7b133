import MeshwardenDaemon.Conversation

/-! Who the responses under way belong to. While no command gives up the slot, all
of them belong to its holder, so that every dispatch is clean. -/
namespace MeshwardenDaemon.CommandSlot
open Protocol ResponseCache Library

structure Owned (P : Settings) (s : State) : Prop where
  outbox : ∀ r ∈ s.outbox, ∃ i, s.commandLock = some i ∧ r.cmd = some i
  inbox : ∀ m ∈ s.inbox, s.commandLock = some m.1 ∨ code m.2 = P.codes.value .reboot

theorem init_owned (P : Settings) : Owned P (init P) := by
  constructor <;> simp [init]

theorem Owned.clean {P : Settings} {s : State} (h : Owned P s) (ok : SlotOk s) (a : Action) :
    Clean s a := by
  unfold Clean
  split
  · intro r hr q hq
    obtain ⟨i, lock, cmd⟩ := h.outbox r (List.mem_of_mem_head? hr)
    obtain rfl : i = q := Option.some.inj (lock.symm.trans ((ok.owner q).mp hq).1)
    exact cmd
  · trivial

theorem Owned.release {P : Settings} {s t : State} {i : CallId} (h : Owned P s)
    (lock : s.commandLock = some i) (inbox : t.inbox = s.inbox) (outbox : t.outbox = s.outbox)
    (owed : s.owed i = [])
    (pending : ∀ f ∈ s.pending i, code f = P.codes.value .reboot) : Owned P t where
  outbox r hr := by
    obtain ⟨j, lock', cmd⟩ := h.outbox r (outbox ▸ hr)
    obtain rfl : i = j := Option.some.inj (lock.symm.trans lock')
    have mine : r ∈ s.owed i := List.mem_filter.mpr ⟨outbox ▸ hr, by simpa using cmd⟩
    exact absurd (owed ▸ mine) List.not_mem_nil
  inbox m hm := by
    rcases h.inbox m (inbox ▸ hm) with lock' | reboot
    · obtain rfl : i = m.1 := Option.some.inj (lock.symm.trans lock')
      refine Or.inr (pending m.2 ?_)
      exact List.mem_map.mpr ⟨m, List.mem_filter.mpr ⟨inbox ▸ hm, by simp⟩, rfl⟩
    · exact Or.inr reboot

theorem settled_iff {s : State} {i : CallId} (h : s.settled i = true) :
    s.owed i = [] ∧ s.pending i = [] := by
  simp only [State.settled, Bool.and_eq_true, List.all_eq_true, bne_iff_ne] at h
  refine ⟨?_, ?_⟩
  · rw [State.owed, List.filter_eq_nil_iff]
    intro r hr
    simpa using h.2 r hr
  · rw [State.pending, List.map_eq_nil_iff, List.filter_eq_nil_iff]
    intro m hm
    simpa using h.1 m hm

/-- No command times out, raises or is cancelled inside the command slot. -/
def NoneAbandoned (s : State) : Action → Prop
  | .fail i _ => (s.calls i).phase.inSlot = false
  | _ => True

instance (s : State) (a : Action) : Decidable (NoneAbandoned s a) := by
  unfold NoneAbandoned
  induction a using Action.casesOn <;> infer_instance

theorem Owned.move {P : Settings} {s t : State} {a : Action} (h : Owned P s) (ok : SlotOk s)
    (conv : Conversing P s) (normal : NoneAbandoned s a) (m : Move P s a t) : Owned P t := by
  cases m with
  | environment | outside | push => exact ⟨h.outbox, h.inbox⟩
  | take free phase =>
    have reboots : ∀ m ∈ s.inbox, code m.2 = P.codes.value .reboot := fun m hm =>
      (h.inbox m hm).resolve_left (by simp [free])
    have quiet : s.outbox = [] := List.eq_nil_iff_forall_not_mem.mpr fun r hr => by
      obtain ⟨_, lock, _⟩ := h.outbox r hr
      simp [free] at lock
    exact ⟨by simp [State.takeSlot, quiet], fun m hm => Or.inr (reboots m hm)⟩
  | transmit phase unsent conn =>
    refine ⟨h.outbox, fun m hm => ?_⟩
    rcases List.mem_append.mp hm with hm | hm
    · exact h.inbox m hm
    · obtain rfl := List.mem_singleton.mp hm
      exact Or.inl (ok.lock_of_phase phase rfl)
  | sendReturns | hands | collects | streams => exact ⟨h.outbox, h.inbox⟩
  | @reboots i phase reboot =>
    obtain ⟨_, conv⟩ := conv.holder ok phase rfl (by simp)
    obtain ⟨owed, pending⟩ := conv.unanswered (by simp [phase, Phase.inSlot]) reboot
    exact h.release (ok.lock_of_phase phase rfl) rfl rfl owed pending
  | @completes i r rest phase queue proxy last =>
    obtain ⟨_, conv⟩ := conv.holder ok phase rfl (by simp)
    obtain ⟨owed, pending, _⟩ :=
      conv.complete (by simp [phase, Phase.inSlot]) (by rw [queue]) last
    exact h.release (ok.lock_of_phase phase rfl) rfl rfl owed (by simp [pending])
  | @delivers i resp phase last =>
    obtain ⟨_, conv⟩ := conv.holder ok phase rfl (by simp)
    obtain ⟨owed, pending, _⟩ := conv.delivered phase last
    exact h.release (ok.lock_of_phase phase rfl) rfl rfl owed (by simp [pending])
  | librarySend phase =>
    refine ⟨h.outbox, fun m hm => ?_⟩
    rcases List.mem_append.mp hm with hm | hm
    · exact h.inbox m hm
    · obtain rfl := List.mem_singleton.mp hm
      exact Or.inl (ok.lock_of_phase phase rfl)
  | libraryReturns phase settled =>
    obtain ⟨owed, pending⟩ := settled_iff settled
    exact h.release (ok.lock_of_phase phase rfl) rfl rfl owed (by simp [pending])
  | abandons phase => simp [NoneAbandoned, phase] at normal
  | @answer i frame rest reply inbox answers =>
    refine ⟨fun r hr => ?_, fun m hm => h.inbox m (inbox ▸ List.mem_cons_of_mem _ hm)⟩
    rcases List.mem_append.mp hr with hr | hr
    · exact h.outbox r hr
    · rcases h.inbox (i, frame) (inbox ▸ List.mem_cons_self) with lock | reboot
      · exact ⟨i, lock, (mem_tagged hr).1⟩
      · simp [answers_reboot answers reboot] at hr
  | @dispatch r rest outbox =>
    have rest_owned : Owned P { s with outbox := rest } :=
      ⟨fun x hx => h.outbox x (outbox ▸ List.mem_cons_of_mem r hx), h.inbox⟩
    rcases dispatchFrame_cases { s with outbox := rest } r with same | ⟨q, -, -, queued⟩
    · rw [same]
      exact rest_owned
    · rw [queued]
      exact ⟨rest_owned.outbox, rest_owned.inbox⟩

theorem clean_run {P : Settings} {acts : List Action} {s : State}
    (clean : Runs.Along (step P) Clean (init P) acts)
    (hrun : Runs.run (step P) (init P) acts = some s) : SlotOk s ∧ Conversing P s := by
  refine Runs.invariant (I := fun s => SlotOk s ∧ Conversing P s) ?_
    ⟨init_slotOk P, init_conversing P⟩ clean hrun
  rintro s a t ⟨ok, conv⟩ hclean hstep
  exact ⟨ok.step hstep, conv.move ok hclean (move_of_step hstep)⟩

theorem normal_run {P : Settings} {acts : List Action} {s : State}
    (normal : Runs.Along (step P) NoneAbandoned (init P) acts)
    (hrun : Runs.run (step P) (init P) acts = some s) :
    SlotOk s ∧ Conversing P s ∧ Owned P s := by
  refine Runs.invariant (I := fun s => SlotOk s ∧ Conversing P s ∧ Owned P s) ?_
    ⟨init_slotOk P, init_conversing P, init_owned P⟩ normal hrun
  rintro s a t ⟨ok, conv, owned⟩ hnormal hstep
  have m := move_of_step hstep
  exact ⟨ok.step hstep, conv.move ok (owned.clean ok a) m, owned.move ok conv hnormal m⟩

end MeshwardenDaemon.CommandSlot
