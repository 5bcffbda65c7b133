import MeshwardenDaemon.CommandHistory
import MeshwardenDaemon.CallSteps

/-! The command slot with the turns of `asyncio.Lock`, which is fair: who finds it taken,
or others waiting, waits behind them, and only the first in the queue takes it. A waiter
that is cancelled leaves the queue. The runs are runs of the slot as before; what the queue
adds is that commands are sent in the order in which they were asked for. -/
namespace MeshwardenDaemon.FairSlot
open CommandSlot Library

abbrev Settings := CommandSlot.Settings

def waits (s : CommandSlot.State) (i : CallId) : Bool :=
  match (s.calls i).phase with
  | .waiting _ => true
  | _ => false

structure State where
  slot : CommandSlot.State
  /-- The futures in `Lock._waiters`. -/
  queue : List CallId
  /-- Ghost: the calls that asked for the slot, in the order in which they did. -/
  entered : List CallId

def init (P : Settings) : State := ⟨CommandSlot.init P, [], []⟩

/-- `Lock.acquire` lets nobody pass who waits behind another. -/
def State.admits (s : State) : Action → Bool
  | .acquire i => s.queue.head? == some i
  | _ => true

def entrant (s t : CommandSlot.State) (a : Action) : Option CallId :=
  (caller a).filter fun i => waits t i && !waits s i

def step (P : Settings) (s : State) (a : Action) : Option State :=
  if s.admits a then
    (CommandSlot.step P s.slot a).map fun t =>
      ⟨t, s.queue.filter (waits t) ++ (entrant s.slot t a).toList,
        s.entered ++ (entrant s.slot t a).toList⟩
  else none

theorem step_eq {P : Settings} {s t : State} {a : Action} (h : step P s a = some t) :
    s.admits a = true ∧ CommandSlot.step P s.slot a = some t.slot ∧
      t.queue = s.queue.filter (waits t.slot) ++ (entrant s.slot t.slot a).toList ∧
      t.entered = s.entered ++ (entrant s.slot t.slot a).toList := by
  simp only [step, Option.ite_none_right_eq_some, Option.map_eq_some_iff] at h
  obtain ⟨admits, u, hu, rfl⟩ := h
  exact ⟨admits, hu, rfl, rfl⟩

/-- The fair slot is the slot: its runs are runs of the slot. -/
theorem run_slot {P : Settings} {s t : State} {acts : List Action}
    (h : Runs.run (step P) s acts = some t) :
    Runs.run (CommandSlot.step P) s.slot acts = some t.slot := by
  induction acts generalizing s with
  | nil =>
    obtain rfl := Option.some.inj h
    rfl
  | cons a rest ih =>
    obtain ⟨u, hu, hr⟩ := Runs.run_cons.mp h
    exact Runs.run_cons.mpr ⟨u.slot, (step_eq hu).2.1, ih hr⟩

theorem waits_iff {s : CommandSlot.State} {i : CallId} :
    waits s i = true ↔ ∃ mc, (s.calls i).phase = .waiting mc := by
  unfold waits
  cases (s.calls i).phase <;> simp

theorem phase_of_other {P : Settings} {s t : CommandSlot.State} {a : Action} {j : CallId}
    (hs : CommandSlot.step P s a = some t) (other : caller a ≠ some j) :
    (t.calls j).phase = (s.calls j).phase := by
  obtain ⟨queue, same⟩ := call_of_other hs other
  rw [same]

theorem fresh_update {s : CommandSlot.State} {i j : CallId} {d : Call} {mc : Conn}
    (own : d.phase = .waiting mc → (s.calls i).phase.fresh = true)
    (phase : (Function.update s.calls i d j).phase = .waiting mc) :
    (s.calls j).phase.fresh = true := by
  by_cases hj : j = i
  · subst hj
    exact own (by simpa using phase)
  · rw [Function.update_of_ne hj] at phase
    simp [phase, Phase.fresh]

theorem fresh_of_waiting {P : Settings} {s t : CommandSlot.State} {a : Action} {j : CallId}
    {mc : Conn} (m : Move P s a t) (phase : (t.calls j).phase = .waiting mc) :
    (s.calls j).phase.fresh = true := by
  have still : (s.calls j).phase = .waiting mc → (s.calls j).phase.fresh = true := fun same => by
    simp [same, Phase.fresh]
  cases m with
  | environment | librarySend | answer | push => exact still phase
  | outside cache proxied hits out =>
    exact fresh_update (fun own => (out.fresh (by simp [own, Phase.fresh])).1) phase
  | @take i mc' free before =>
    exact fresh_update (fun _ => by simp [before, Phase.fresh]) phase
  | transmit before =>
    refine fresh_update (fun own => ?_) phase
    cases before.symm.trans own
  | sendReturns | reboots | hands | collects | completes | streams | delivers
  | libraryReturns | abandons =>
    refine fresh_update (fun own => ?_) phase
    cases own
  | dispatch =>
    obtain ⟨queue, same⟩ := dispatchFrame_call { s with outbox := _ } _ j
    rw [same] at phase
    exact still phase

theorem waits_step {P : Settings} {s t : CommandSlot.State} {a : Action} {j : CallId}
    (hs : CommandSlot.step P s a = some t) (after : waits t j = true) :
    waits s j = true ∨ entrant s t a = some j ∧
      ((s.calls j).phase = .idle ∨ (s.calls j).phase = .logging) := by
  cases before : waits s j with
  | true => exact Or.inl rfl
  | false =>
    right
    have carried : caller a = some j := by
      by_contra other
      rw [waits, phase_of_other hs other] at after
      exact absurd (before.symm.trans after) nofun
    refine ⟨by simp [entrant, carried, before, after], ?_⟩
    obtain ⟨mc, phase⟩ := waits_iff.mp after
    have fresh := fresh_of_waiting (move_of_step hs) phase
    cases hp : (s.calls j).phase with
    | idle => exact Or.inl rfl
    | logging => exact Or.inr rfl
    | waiting mc' => simp [waits, hp] at before
    | _ => simp [hp, Phase.fresh] at fresh

theorem waiting_step {P : Settings} {s t : CommandSlot.State} {a : Action} {i : CallId}
    (hs : CommandSlot.step P s a = some t) (waiting : waits s i = true) :
    waits t i = true ∨ (t.calls i).phase.inSlot = true ∨ (t.calls i).phase.ended = true := by
  by_cases carried : caller a = some i
  · obtain ⟨mc, phase⟩ := waits_iff.mp waiting
    right
    cases a <;> simp only [caller, reduceCtorEq, Option.some.injEq] at carried <;>
      subst carried <;> simp [CommandSlot.step, phase] at hs
    -- of the actions that carry a call on, a waiting one allows only these two
    case acquire i =>
      left
      split at hs
      · rename_i taken waiting
        cases hs
        cases library : (s.calls i).origin.isLibrary <;>
          simp [State.takeSlot, library, Phase.inSlot]
      · cases hs
    case fail i e =>
      obtain ⟨-, rfl⟩ := hs
      exact Or.inr (by simp [State.abandon, Phase.ended])
  · left
    rw [waits, phase_of_other hs carried]
    exact waiting

theorem kept_update {s : CommandSlot.State} {i j : CallId} {d : Call}
    (own : d.phase.inSlot = true ∨ d.phase.ended = true)
    (before : (s.calls j).phase.inSlot = true) :
    (Function.update s.calls i d j).phase.inSlot = true ∨
      (Function.update s.calls i d j).phase.ended = true := by
  by_cases hj : j = i
  · subst hj
    simpa using own
  · rw [Function.update_of_ne hj]
    exact Or.inl before

theorem inSlot_step {P : Settings} {s t : CommandSlot.State} {a : Action} {i : CallId}
    (hs : CommandSlot.step P s a = some t) (slot : (s.calls i).phase.inSlot = true) :
    (t.calls i).phase.inSlot = true ∨ (t.calls i).phase.ended = true := by
  cases move_of_step hs with
  | environment | librarySend | answer | push => exact Or.inl slot
  | @outside a j d cache proxied hits out =>
    by_cases hij : i = j
    · subst hij
      exact absurd (out.before.symm.trans slot) nofun
    · rw [setCall_calls_ne hij]
      exact Or.inl slot
  | @take j mc free phase =>
    refine kept_update (Or.inl ?_) slot
    cases library : (s.calls j).origin.isLibrary <;> rfl
  | transmit phase =>
    refine kept_update (Or.inl ?_) slot
    simp [phase, Phase.inSlot]
  | sendReturns | hands | collects | streams => exact kept_update (Or.inl (by rfl)) slot
  | reboots | completes | delivers | libraryReturns | abandons =>
    exact kept_update (Or.inr (by rfl)) slot
  | dispatch =>
    obtain ⟨queue, same⟩ := dispatchFrame_call { s with outbox := _ } _ i
    rw [same]
    exact Or.inl slot

structure Fair (s : State) : Prop where
  ok : SlotOk s.slot
  sequenced : ∃ record, Sequenced (logOf record) s.slot
  nodup : s.entered.Nodup
  asked : ∀ i ∈ s.entered, waits s.slot i = true ∨ (s.slot.calls i).phase.inSlot = true ∨
    (s.slot.calls i).phase.ended = true
  queue : s.queue = s.entered.filter (waits s.slot)
  ordered : s.entered.Pairwise fun i j => (s.slot.calls j).slot ≠ 0 →
    waits s.slot i = false ∧ (s.slot.calls i).slot < (s.slot.calls j).slot

theorem init_fair (P : Settings) : Fair (init P) where
  ok := init_slotOk P
  sequenced := ⟨[], init_sequenced P⟩
  nodup := List.nodup_nil
  asked := by simp [init]
  queue := rfl
  ordered := List.Pairwise.nil

theorem entrant_eq {s t : CommandSlot.State} {a : Action} {i : CallId}
    (h : entrant s t a = some i) : waits t i = true ∧ waits s i = false := by
  simpa using (Option.filter_eq_some_iff.mp h).2

/-- Who asked for the slot does not ask again. -/
theorem Fair.not_again {P : Settings} {s t : State} {a : Action} {i : CallId} (h : Fair s)
    (hs : FairSlot.step P s a = some t) (mem : i ∈ s.entered)
    (after : waits t.slot i = true) : waits s.slot i = true := by
  refine (waits_step (step_eq hs).2.1 after).resolve_right ?_
  rintro ⟨enters, idle | logging⟩
  · rcases h.asked i mem with waiting | slot | ended
    · exact absurd ((entrant_eq enters).2.symm.trans waiting) nofun
    · simp [idle, Phase.inSlot] at slot
    · simp [idle, Phase.ended] at ended
  · rcases h.asked i mem with waiting | slot | ended
    · exact absurd ((entrant_eq enters).2.symm.trans waiting) nofun
    · simp [logging, Phase.inSlot] at slot
    · simp [logging, Phase.ended] at ended

theorem Fair.unserved {s : State} {i : CallId} (h : Fair s) (waiting : waits s.slot i = true) :
    (s.slot.calls i).slot = 0 := by
  obtain ⟨record, sequenced⟩ := h.sequenced
  obtain ⟨mc, phase⟩ := waits_iff.mp waiting
  exact sequenced.early i (by simp [phase, Phase.inSlot]) (by simp [phase, Phase.ended])

theorem Fair.first {s : State} {i j : CallId} (h : Fair s) (first : s.queue.head? = some j)
    (before : [i, j].Sublist s.entered) : waits s.slot i = false := by
  by_contra waiting
  rw [Bool.not_eq_false] at waiting
  obtain ⟨rest, queue⟩ := List.head?_eq_some_iff.mp first
  have distinct : (j :: rest).Nodup := by
    rw [← queue, h.queue]
    exact h.nodup.filter _
  have waits_j : waits s.slot j = true := by
    have mem : j ∈ s.queue := by simp [queue]
    rw [h.queue] at mem
    exact (List.mem_filter.mp mem).2
  have behind : [i, j].Sublist (j :: rest) := by
    have kept := before.filter (waits s.slot)
    simpa [waiting, waits_j, ← h.queue, queue] using kept
  cases behind with
  | cons _ within => exact (List.nodup_cons.mp distinct).1 (within.subset (by simp))
  | cons_cons _ within => exact (List.nodup_cons.mp distinct).1 (within.subset (by simp))

theorem Fair.ordered_step {P : Settings} {s t : State} {a : Action} (h : Fair s)
    (hs : step P s a = some t) : s.entered.Pairwise fun i j => (t.slot.calls j).slot ≠ 0 →
      waits t.slot i = false ∧ (t.slot.calls i).slot < (t.slot.calls j).slot := by
  obtain ⟨admits, hslot, -, -⟩ := step_eq hs
  refine List.pairwise_iff_forall_sublist.mpr fun {i j} before taken => ?_
  have mem : i ∈ s.entered := before.subset List.mem_cons_self
  have gone : waits s.slot i = false → waits t.slot i = false := by
    intro left
    by_contra waiting
    exact absurd (left.symm.trans (h.not_again hs mem (by simpa using waiting))) nofun
  rcases (move_of_step hslot).slot j with same | ⟨rfl, ⟨mc, phase⟩, next⟩
  · rw [same] at taken ⊢
    obtain ⟨left, lt⟩ := h.ordered.forall_sublist before taken
    refine ⟨gone left, ?_⟩
    rcases (move_of_step hslot).slot i with same | ⟨-, waiting, -⟩
    · rwa [same]
    · exact absurd (left.symm.trans (waits_iff.mpr waiting)) nofun
  · have left := h.first (by simpa [State.admits] using admits) before
    refine ⟨gone left, ?_⟩
    rw [next]
    rcases (move_of_step hslot).slot i with same | ⟨-, waiting, -⟩
    · rw [same]
      exact Nat.lt_succ_of_le (h.ok.slot_le i)
    · exact absurd (left.symm.trans (waits_iff.mpr waiting)) nofun

theorem Fair.step {P : Settings} {s t : State} {a : Action} (h : Fair s)
    (hs : FairSlot.step P s a = some t) : Fair t := by
  obtain ⟨-, hslot, queue, entered⟩ := step_eq hs
  obtain ⟨record, sequenced⟩ := h.sequenced
  have fresh : ∀ i ∈ (entrant s.slot t.slot a).toList, i ∉ s.entered := by
    intro i enters mem
    obtain ⟨after, before⟩ := entrant_eq (Option.mem_toList.mp enters)
    exact absurd (before.symm.trans (h.not_again hs mem after)) nofun
  have new : ∀ i ∈ (entrant s.slot t.slot a).toList, waits t.slot i = true :=
    fun i enters => (entrant_eq (Option.mem_toList.mp enters)).1
  have sequenced' := sequenced.step h.ok hslot
  refine ⟨h.ok.step hslot, ⟨_, sequenced'⟩, ?_, ?_, ?_, ?_⟩
  · rw [entered]
    refine h.nodup.append ?_ fun i mem enters => fresh i enters mem
    cases entrant s.slot t.slot a <;> simp
  · rw [entered]
    intro i mem
    rcases List.mem_append.mp mem with mem | enters
    · rcases h.asked i mem with waiting | slot | ended
      · exact waiting_step hslot waiting
      · exact Or.inr (inSlot_step hslot slot)
      · rw [(ended_stable h.ok hslot ended).1]
        exact Or.inr (Or.inr ended)
    · exact Or.inl (new i enters)
  · rw [queue, entered, h.queue, List.filter_filter, List.filter_append,
      List.filter_eq_self.mpr new]
    congr 1
    refine List.filter_congr fun i mem => ?_
    cases after : waits t.slot i with
    | true => simp [h.not_again hs mem after]
    | false => simp
  · rw [entered, List.pairwise_append]
    refine ⟨h.ordered_step hs, ?_, fun i _ j enters taken => ?_⟩
    · cases entrant s.slot t.slot a <;> simp
    · obtain ⟨mc, phase⟩ := waits_iff.mp (new j enters)
      exact absurd (sequenced'.early j (by simp [phase, Phase.inSlot])
        (by simp [phase, Phase.ended])) taken

theorem fair_run {P : Settings} {acts : List Action} {s : State}
    (hrun : Runs.run (step P) (init P) acts = some s) : Fair s :=
  Runs.reachable (fun _ _ _ h hs => h.step hs) (init_fair P) hrun

/-- Commands reach the node in the order in which the slot was asked for: whoever asked
later has no slot before the earlier one has had its turn. -/
theorem commands_in_order_asked (P : Settings) (acts : List Action) (s : State)
    (hrun : Runs.run (step P) (init P) acts = some s) :
    (∀ i j, [i, j].Sublist s.entered →
      ¬ [j, i].Sublist (s.slot.arrivals (nodeLog P acts)) ∧
        ((s.slot.calls j).slot ≠ 0 → waits s.slot i = false)) ∧
      s.queue = s.entered.filter (waits s.slot) := by
  have fair := fair_run hrun
  obtain ⟨-, sequenced⟩ := sequenced_run (run_slot hrun)
  refine ⟨fun i j before => ⟨?_, fun taken => ?_⟩, fair.queue⟩
  · intro reversed
    have arrived := sequenced.arrived j (reversed.subset List.mem_cons_self)
    have lt := (fair.ordered.forall_sublist before (by omega)).2
    exact Linearization.not_reversed sequenced.sorted lt reversed
  · exact (fair.ordered.forall_sublist before taken).1

def turnsRun : List Action :=
  [.connect, .sendRawCommand 0 [22], .handleCommand 1 7 [20], .command 2 .getBat, .logged 1,
    .acquire 0, .sendRawCommand 3 [22], .transmit 0, .answer [[13]], .sendReturns 0,
    .fail 2 .cancelled, .dispatch, .receive 0, .acquire 1, .transmit 1]

theorem commands_in_order_asked_turns :
    ∃ s, Runs.run (step sampleSettings) (init sampleSettings) turnsRun = some s ∧
      s.entered = [0, 2, 1, 3] ∧ s.queue = [3] ∧
      ¬ [1, 0].Sublist (s.slot.arrivals (nodeLog sampleSettings turnsRun)) := by
  have got : (Runs.run (step sampleSettings) (init sampleSettings) turnsRun).map
      (fun s => (s.entered, s.queue)) = some ([0, 2, 1, 3], [3]) := by decide +kernel
  rw [Option.map_eq_some_iff] at got
  obtain ⟨s, hs, seen⟩ := got
  rw [Prod.mk.injEq] at seen
  refine ⟨s, hs, seen.1, seen.2, ?_⟩
  exact ((commands_in_order_asked sampleSettings turnsRun s hs).1 0 1
    (by rw [seen.1]; decide)).1

theorem idxOf_filter_le {p : CallId → Bool} {i : CallId} (hi : p i = true) (l : List CallId) :
    (l.filter p).idxOf i ≤ l.idxOf i := by
  induction l with
  | nil => simp
  | cons x l ih =>
    by_cases hx : x = i
    · subst hx
      simp [hi]
    · cases px : p x with
      | true => simpa [List.filter_cons, px, List.idxOf_cons_ne _ hx] using ih
      | false =>
        rw [List.filter_cons_of_neg (by simp [px]), List.idxOf_cons_ne _ hx]
        exact ih.trans (Nat.le_succ _)

theorem slots_step {P : Settings} {s t : CommandSlot.State} {a : Action}
    (m : Move P s a t) : t.slots = s.slots ∨
      ∃ j, a = .acquire j ∧ t.slots = s.slots + 1 ∧ waits t j = false := by
  cases m with
  | @take j mc free phase =>
    refine Or.inr ⟨j, rfl, rfl, ?_⟩
    cases library : (s.calls j).origin.isLibrary <;> simp [waits, State.takeSlot, library]
  | @dispatch r rest outbox =>
    left
    rcases dispatchFrame_cases { s with outbox := rest } r with same | ⟨q, -, -, queued⟩
    · rw [same]
    · rw [queued]
      rfl
  | _ => exact Or.inl rfl

theorem Fair.forward {P : Settings} {s t : State} {a : Action} {i : CallId} (h : Fair s)
    (hs : FairSlot.step P s a = some t) (waiting : waits s.slot i = true)
    (mem : i ∈ s.entered) (still : waits t.slot i = true) :
    t.slot.slots + t.queue.idxOf i ≤ s.slot.slots + s.queue.idxOf i := by
  obtain ⟨admits, hslot, queue, -⟩ := step_eq hs
  have queued : i ∈ s.queue := by
    rw [h.queue]
    exact List.mem_filter.mpr ⟨mem, waiting⟩
  have kept : i ∈ s.queue.filter (waits t.slot) := List.mem_filter.mpr ⟨queued, still⟩
  rw [queue, List.idxOf_append_of_mem kept]
  rcases slots_step (move_of_step hslot) with same | ⟨j, rfl, next, gone⟩
  · rw [same]
    exact Nat.add_le_add_left (idxOf_filter_le still _) _
  · -- the first of the queue is gone, and `i` is not the first
    obtain ⟨rest, first⟩ := List.head?_eq_some_iff.mp
      (by simpa [State.admits] using admits : s.queue.head? = some j)
    have other : j ≠ i := by
      rintro rfl
      exact absurd (gone.symm.trans still) nofun
    rw [next, first, List.filter_cons_of_neg (by simp [gone]), List.idxOf_cons_ne _ other]
    have := idxOf_filter_le still rest
    omega

/-- A call that waits behind others takes the slot before more slots are taken than there
are calls before it, however the actions are ordered, unless it gives up. -/
theorem bounded_waiting (P : Settings) (acts more : List Action) (s t : State) (i : CallId)
    (hs : Runs.run (step P) (init P) acts = some s) (ht : Runs.run (step P) s more = some t)
    (waiting : i ∈ s.queue) :
    (i ∈ t.queue → t.slot.slots + t.queue.idxOf i ≤ s.slot.slots + s.queue.idxOf i) ∧
      (t.slot.calls i).slot ≤ s.slot.slots + s.queue.idxOf i + 1 := by
  have fair := fair_run hs
  rw [fair.queue] at waiting
  obtain ⟨mem, waiting⟩ := List.mem_filter.mp waiting
  have bounded := Runs.reachable
    (I := fun u : State => (Fair u ∧ i ∈ u.entered) ∧
      (waits u.slot i = true → u.slot.slots + u.queue.idxOf i ≤
        s.slot.slots + s.queue.idxOf i) ∧
      (waits u.slot i = false → (u.slot.calls i).slot ≤
        s.slot.slots + s.queue.idxOf i + 1)) ?_
    ⟨⟨fair, mem⟩, fun _ => le_rfl, fun left => absurd (left.symm.trans waiting) nofun⟩ ht
  · obtain ⟨⟨fair', -⟩, bound, taken⟩ := bounded
    refine ⟨fun queued => ?_, ?_⟩
    · rw [fair'.queue] at queued
      exact bound (List.mem_filter.mp queued).2
    · cases still : waits t.slot i with
      | false => exact taken still
      | true =>
        have := fair'.unserved still
        omega
  · rintro u a v ⟨⟨fair, mem⟩, bound, taken⟩ hv
    obtain ⟨-, hslot, -, entered⟩ := step_eq hv
    refine ⟨⟨fair.step hv, by simp [entered, mem]⟩, fun still => ?_, fun left => ?_⟩
    · have before := fair.not_again hv mem still
      exact (fair.forward hv before mem still).trans (bound before)
    · rcases (move_of_step hslot).slot i with same | ⟨-, before, next⟩
      · rw [same]
        cases before : waits u.slot i with
        | false => exact taken before
        | true =>
          have := fair.unserved before
          omega
      · have := bound (waits_iff.mpr before)
        omega

/-- Call 3 waits behind call 1, while call 0 has the slot. -/
theorem bounded_waiting_turns :
    ∃ s t, Runs.run (step sampleSettings) (init sampleSettings) (turnsRun.take 11) = some s ∧
      Runs.run (step sampleSettings) s (turnsRun.drop 11) = some t ∧
      t.slot.slots + t.queue.idxOf 3 ≤ s.slot.slots + s.queue.idxOf 3 := by
  obtain ⟨t, ht⟩ := Option.isSome_iff_exists.mp
    (by decide +kernel : (Runs.run (step sampleSettings) (init sampleSettings)
      (turnsRun.take 11 ++ turnsRun.drop 11)).isSome = true)
  have queues : (Runs.run (step sampleSettings) (init sampleSettings) (turnsRun.take 11)).map
      State.queue = some [1, 3] ∧
      (Runs.run (step sampleSettings) (init sampleSettings)
        (turnsRun.take 11 ++ turnsRun.drop 11)).map State.queue = some [3] := by
    decide +kernel
  obtain ⟨s, hs, rest⟩ := Runs.run_append.mp ht
  rw [hs, ht] at queues
  simp only [Option.map_some, Option.some.injEq] at queues
  refine ⟨s, t, hs, rest, ?_⟩
  exact (bounded_waiting sampleSettings _ _ s t 3 hs rest (by simp [queues.1])).1
    (by simp [queues.2])

end MeshwardenDaemon.FairSlot
