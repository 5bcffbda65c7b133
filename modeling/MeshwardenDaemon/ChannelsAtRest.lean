import MeshwardenDaemon.ChannelSync

/-! Which slots have a row when the tracker is at rest. A row carries one slot, so a
slot loses its row when its secret is read from another slot; apart from that every
slot in use keeps one. -/
namespace MeshwardenDaemon.ChannelTracker
open ChannelTable MessageTable Library

def Progress.reading : Option Progress → Option ℕ
  | some (.read slot _) => some slot
  | _ => none

/-- The tracker does not read from another slot the secret that `slot` holds. -/
def Apart (slot : ℕ) (s : State) : Action → Prop
  | .read => ∀ at_ ∈ Progress.reading s.running, at_ = slot ∨ (s.node at_).isEmpty = true ∨
      (s.node slot).isEmpty = true ∨
      (s.node at_).channelSecret ≠ (s.node slot).channelSecret
  | _ => True

instance (slot : ℕ) (s : State) (a : Action) : Decidable (Apart slot s a) := by
  unfold Apart
  induction a using Action.casesOn <;> infer_instance

def Present (s : State) (slot : ℕ) : Prop :=
  (s.node slot).isEmpty = false → slot < s.maxChannels →
    ∃ r ∈ s.channels.rows, r.slot = some slot

structure Complete (s : State) (slot : ℕ) : Prop where
  present : Due s slot ∨ Progress.writes s.running = some slot ∨ Present s slot
  away : ∀ at_ p, Progress.assigns s.running = some (at_, p) → at_ ≠ slot →
    Due s slot ∨ (s.node slot).isEmpty = true ∨ p.channelSecret ≠ (s.node slot).channelSecret

section Complete
variable {s t : State} {a : Action} {slot : ℕ}

theorem Writing.writes (h : Writing s slot) : Progress.writes s.running = some slot := by
  unfold Writing at h
  split at h
  · rename_i at_ p rest running
    simp [running, Progress.writes, h.1]
  · rename_i at_ p id rest running
    simp [running, Progress.writes, h.1]
  · rename_i at_ p id rest running
    simp [running, Progress.writes, h.1]
  · rename_i at_ rest running
    simp [running, Progress.writes, h.1]
  · cases h

theorem assigns_writes {running : Option Progress} {at_ : ℕ} {p : SlotInfo}
    (h : Progress.assigns running = some (at_, p)) : Progress.writes running = some at_ := by
  unfold Progress.assigns at h
  split at h <;> simp_all [Progress.writes]

theorem Move.maxChannels (m : Move s a t) : t.maxChannels = s.maxChannels := by
  cases m <;> rfl

theorem Present.keep (h : Present s slot) (node : t.node slot = s.node slot)
    (maxChannels : t.maxChannels = s.maxChannels)
    (rows : ∀ r ∈ s.channels.rows, r.slot = some slot →
      ∃ r' ∈ t.channels.rows, r'.slot = some slot) : Present t slot := by
  intro used lt
  rw [node] at used
  rw [maxChannels] at lt
  obtain ⟨r, hr, hslot⟩ := h used lt
  exact rows r hr hslot

theorem Complete.of_due (due : Due s slot) (grounded : Grounded s) (flight : Flight s)
    (undisturbed : Undisturbed s a) (m : Move s a t) : Complete t slot := by
  rcases due.move grounded flight undisturbed m with due | writing | ⟨beyond, idle, _⟩
  · exact ⟨Or.inl due, fun _ _ _ _ => Or.inl due⟩
  · refine ⟨Or.inr (Or.inl writing.writes), fun at_ p assigned ne => ?_⟩
    have same := (assigns_writes assigned).symm.trans writing.writes
    exact absurd (Option.some.inj same) ne
  · refine ⟨Or.inr (Or.inr fun _ lt => ?_), fun at_ p assigned => ?_⟩
    · rw [m.maxChannels] at lt
      omega
    · simp [idle, Progress.assigns] at assigned

theorem Complete.carry (h : Complete s slot) (settled : ¬ Due s slot)
    (node : t.node slot = s.node slot) (channels : t.channels = s.channels)
    (running : t.running = s.running) (maxChannels : t.maxChannels = s.maxChannels) :
    Complete t slot := by
  refine ⟨?_, ?_⟩
  · right
    rw [running]
    refine (h.present.resolve_left settled).imp_right fun present => ?_
    exact present.keep node maxChannels fun r hr hslot => ⟨r, channels ▸ hr, hslot⟩
  · intro at_ p assigned ne
    rw [running] at assigned
    rw [node]
    exact Or.inr ((h.away at_ p assigned ne).resolve_left settled)

theorem Complete.between (present : Present s slot) (node : t.node slot = s.node slot)
    (maxChannels : t.maxChannels = s.maxChannels)
    (rows : ∀ r ∈ s.channels.rows, r.slot = some slot →
      ∃ r' ∈ t.channels.rows, r'.slot = some slot)
    (idle : Progress.assigns t.running = none) : Complete t slot := by
  refine ⟨Or.inr (Or.inr (present.keep node maxChannels rows)), fun at_ p assigned => ?_⟩
  simp [idle] at assigned

theorem unassign_keeps {channels : Channels} {p : ChannelRow → Bool} {r : ChannelRow}
    (hr : r ∈ channels.rows) (hp : p r = false) : r ∈ (channels.unassign p).rows :=
  mem_unassign.mpr (Or.inl ⟨hr, hp⟩)

theorem Complete.upsert {at_ id : ℕ} {p : SlotInfo} {rest : Rest} {channels : Channels}
    (h : Complete s slot) (settled : ¬ Due s slot)
    (running : s.running = some (.upsert at_ p rest))
    (upserted : Upserted s.channels channels p.channelName p.channelSecret id) :
    Complete { s with channels := channels, running := some (.vacate at_ p id rest) } slot := by
  refine ⟨?_, ?_⟩
  · right
    have present := h.present.resolve_left settled
    rw [running] at present
    refine present.imp_right fun present => present.keep rfl rfl fun r hr hslot => ?_
    obtain ⟨r', hr', _, _, same⟩ := upserted.to_new r hr
    exact ⟨r', hr', same.trans hslot⟩
  · intro at' p' assigned ne
    have away := h.away at' p' (by rw [running]; exact assigned) ne
    exact Or.inr (away.resolve_left settled)

theorem Complete.vacate {at_ id : ℕ} {p : SlotInfo} {rest : Rest} (h : Complete s slot)
    (settled : ¬ Due s slot) (running : s.running = some (.vacate at_ p id rest)) :
    Complete { s with
      channels := s.channels.vacateSlot at_ id
      running := some (.place at_ p id rest) } slot := by
  refine ⟨?_, ?_⟩
  · right
    by_cases hat : at_ = slot
    · exact Or.inl (congrArg some hat)
    · have present := (h.present.resolve_left settled).resolve_left
        (by simpa [running, Progress.writes] using hat)
      refine Or.inr (present.keep rfl rfl fun r hr hslot => ⟨r, unassign_keeps hr ?_, hslot⟩)
      simp [hslot, Ne.symm hat]
  · intro at' p' assigned ne
    have away := h.away at' p' (by rw [running]; exact assigned) ne
    exact Or.inr (away.resolve_left settled)

/-- The row moved into another slot is not the row of this one. -/
theorem Complete.place {at_ id : ℕ} {p : SlotInfo} {rest : Rest} {channels : Channels}
    {seen : ℕ → Option Secret} (h : Complete s slot) (settled : ¬ Due s slot)
    (tracked : Settled s slot) (sighted : Sighted s)
    (running : s.running = some (.place at_ p id rest))
    (set : s.channels.setSlot at_ id = some channels) :
    Complete { s with channels := channels, running := rest.next, seen := seen } slot := by
  have known := sighted.placing at_ p id rest (Or.inr running)
  obtain ⟨moved, hmoved, hid, hsecret⟩ := secretOf_eq_some.mp known
  refine ⟨Or.inr (Or.inr fun used lt => ?_), fun at' p' assigned => by simp at assigned⟩
  by_cases hat : at_ = slot
  · exact ⟨_, (mem_setSlot set _).mpr (Or.inr ⟨moved, hmoved, hid, rfl⟩), congrArg some hat⟩
  · have elsewhere : Progress.writes s.running ≠ some slot := by
      simpa [running, Progress.writes] using hat
    obtain ⟨r, hr, hslot⟩ := ((h.present.resolve_left settled).resolve_left elsewhere) used lt
    by_cases hrid : r.id = id
    · -- both slots would hold the secret of the one row
      obtain rfl := s.channels.id_unique.eq_of_mem hr hmoved (congrArg some hrid)
        (congrArg some hid)
      have holds := tracked.resolve_left fun writing => elsewhere writing.writes
      have away := h.away at_ p (by rw [running]; rfl) hat
      rcases away.resolve_left settled with empty | other
      · simp [used] at empty
      · exact absurd (hsecret.symm.trans (holds.2 r hr hslot).1) other
    · exact ⟨r, (mem_setSlot set r).mpr (Or.inl ⟨hr, hrid⟩), hslot⟩

theorem Complete.clear {at_ : ℕ} {rest : Rest} (h : Complete s slot) (settled : ¬ Due s slot)
    (tracked : Settled s slot) (running : s.running = some (.clear at_ rest)) :
    Complete { s with channels := s.channels.clearSlot at_, running := rest.next } slot := by
  refine ⟨Or.inr (Or.inr ?_), fun at' p' assigned => by simp at assigned⟩
  by_cases hat : at_ = slot
  · have writing : Writing s slot := tracked.resolve_right fun elsewhere => elsewhere.1
      (by simp [running, Progress.writes, hat])
    simp only [Writing, running] at writing
    intro used
    simp [writing.2] at used
  · have present := (h.present.resolve_left settled).resolve_left
      (by simpa [running, Progress.writes] using hat)
    refine present.keep rfl rfl fun r hr hslot => ⟨r, unassign_keeps hr ?_, hslot⟩
    simp [hslot, Ne.symm hat]

theorem Complete.move (h : Complete s slot) (tracked : Tracked s slot) (grounded : Grounded s)
    (flight : Flight s) (up : s.connected = true) (undisturbed : Undisturbed s a)
    (apart : Apart slot s a) (m : Move s a t) : Complete t slot := by
  by_cases due : Due s slot
  · exact Complete.of_due due grounded flight undisturbed m
  have settled := tracked.resolve_left due
  have present : Progress.writes s.running = none → Present s slot := fun idle =>
    (h.present.resolve_left due).resolve_left (by simp [idle])
  cases m with
  | connect down | offline down =>
    rw [up] at down
    cases down
  | readError | trackerFails | upsertExtra => cases undisturbed
  | @accepts changed p rest inbox lt =>
    by_cases hslot : changed = slot
    · subst hslot
      have now := due_of_accepts flight inbox
      exact ⟨Or.inl now, fun _ _ _ _ => Or.inl now⟩
    · exact h.carry due (Function.update_of_ne (Ne.symm hslot) _ _) rfl rfl rfl
  | take free =>
    exact Complete.between (present (by simp [free, Progress.writes])) rfl rfl
      (fun r hr hslot => ⟨r, hr, hslot⟩) (by simp)
  | query running =>
    exact Complete.between (present (by simp [running, Progress.writes])) rfl rfl
      (fun r hr hslot => ⟨r, hr, hslot⟩) (by simp)
  | readEmpty running =>
    exact Complete.between (present (by simp [running, Progress.writes])) rfl rfl
      (fun r hr hslot => ⟨r, hr, hslot⟩) rfl
  | @readChannel at_ rest running free used =>
    have here := present (by simp [running, Progress.writes])
    refine ⟨Or.inr (Or.inr here), fun at' p assigned ne => Or.inr ?_⟩
    simp only [Progress.assigns, Option.some.injEq, Prod.mk.injEq] at assigned
    obtain ⟨rfl, rfl⟩ := assigned
    have other := (apart at_ (by rw [running]; rfl)).resolve_left ne
    exact other.resolve_left (by simp [used])
  | upsert running upserted => exact h.upsert due running upserted
  | vacate running => exact h.vacate due running
  | place running set => exact h.place due settled grounded.sighted running set
  | placeFails running set =>
    have placed := setSlot_isSome (grounded.vacated _ _ _ _ running)
    simp [set] at placed
  | clear running => exact h.clear due settled running
  | @clearFrom bound now running =>
    refine ⟨Or.inr (Or.inr fun used lt => ?_), by simp [Progress.assigns]⟩
    obtain ⟨r, hr, hslot⟩ := present (by simp [running, Progress.writes]) used lt
    have same : bound = s.maxChannels := grounded.within _ running
    refine ⟨r, unassign_keeps hr ?_, hslot⟩
    simpa [hslot, same] using lt
  | _ => exact h.carry due rfl rfl rfl rfl

end Complete

structure Following (s : State) : Prop where
  grounded : Grounded s
  flight : Flight s
  up : s.connected = true
  tracked : ∀ slot, Tracked s slot

theorem grounded_run {node : ℕ → SlotInfo} {maxChannels : ℕ} {channels : Channels}
    {messages : Messages} {acts : List Action} {s : State}
    (hrun : Runs.run step (init node maxChannels channels messages) acts = some s) :
    Grounded s :=
  Runs.reachable (fun _ _ _ h hs => h.step hs)
    (init_grounded node maxChannels channels messages) hrun

theorem following_connect {s t : State} (h : Grounded s) (hs : step s .connect = some t) :
    Following t ∧ ∀ slot, Due t slot := by
  have grounded := h.step hs
  cases move_of_step hs with
  | connect down =>
    obtain ⟨noInbox, noOutbox⟩ := h.offline down
    have due : ∀ slot, Due { s with
        connected := true, waiting := s.waiting ++ [.refresh] } slot := fun slot =>
      Or.inl (List.mem_append_right _ (List.mem_singleton_self _))
    refine ⟨⟨grounded, ?_, rfl, fun slot => Or.inl (due slot)⟩, due⟩
    constructor <;> simp [noInbox, noOutbox]

theorem Following.step {s t : State} {a : Action} (h : Following s)
    (undisturbed : Undisturbed s a) (hs : ChannelTracker.step s a = some t) : Following t := by
  have m := move_of_step hs
  refine ⟨h.grounded.step hs, h.flight.move undisturbed m, ?_, fun slot =>
    (h.tracked slot).move h.grounded h.flight h.up undisturbed m⟩
  cases m with
  | connect => rfl
  | lose => cases undisturbed
  | _ => exact h.up

theorem not_due_at_rest {s : State} {slot : ℕ} (noJobs : s.waiting = [])
    (idle : s.running = none) (landed : s.inFlight = none) : ¬ Due s slot := by
  rintro (refresh | resync | ⟨p, hp, _⟩ | ⟨f, flying, _⟩)
  · simp [noJobs] at refresh
  · simp [noJobs] at resync
  · simp [idle] at hp
  · simp [landed] at flying

theorem Tracked.at_rest {s : State} {slot : ℕ} (h : Tracked s slot) (noJobs : s.waiting = [])
    (idle : s.running = none) (landed : s.inFlight = none) :
    ∀ r ∈ s.channels.rows, r.slot = some slot →
      r.secret = (s.node slot).channelSecret ∧ r.name = (s.node slot).channelName ∧
      (s.node slot).isEmpty = false := by
  intro r hr hslot
  rcases h with due | writing | ⟨_, holds⟩
  · exact absurd due (not_due_at_rest noJobs idle landed)
  · simp [Writing, idle] at writing
  · obtain ⟨secret, used, name | moved⟩ := holds r hr hslot
    · exact ⟨secret, name, used⟩
    · simp [idle, Progress.moving] at moved

/-- After any run and a connect, and an undisturbed run from there to a state with no
tracker job and no SET_CHANNEL under way: a row with a slot is the channel the slot
holds, and a slot in use has its row if its secret was never read from another slot. -/
theorem channels_track_node (node : ℕ → SlotInfo) (maxChannels : ℕ) (channels : Channels)
    (messages : Messages) (before after : List Action) (s₀ s₁ s : State)
    (hbefore : Runs.run step (init node maxChannels channels messages) before = some s₀)
    (hconnect : step s₀ .connect = some s₁)
    (hafter : Runs.run step s₁ after = some s)
    (undisturbed : Runs.Along step Undisturbed s₁ after)
    (noJobs : s.waiting = []) (idle : s.running = none) (landed : s.inFlight = none) :
    (∀ slot, ∀ r ∈ s.channels.rows, r.slot = some slot →
      r.secret = (s.node slot).channelSecret ∧ r.name = (s.node slot).channelName ∧
      (s.node slot).isEmpty = false) ∧
    ∀ slot < s.maxChannels, (s.node slot).isEmpty = false →
      Runs.Along step (Apart slot) s₁ after → ∃ r ∈ s.channels.rows, r.slot = some slot := by
  obtain ⟨follows, due⟩ := following_connect (grounded_run hbefore) hconnect
  refine ⟨?_, ?_⟩
  · have following := Runs.invariant (I := Following) (fun _ _ _ h hC hs => h.step hC hs)
      follows undisturbed hafter
    exact fun slot => (following.tracked slot).at_rest noJobs idle landed
  · intro slot lt used apart
    have both := Runs.invariant (I := fun s => Following s ∧ Complete s slot) ?_
      ⟨follows, ⟨Or.inl (due slot), fun _ _ _ _ => Or.inl (due slot)⟩⟩
      (Runs.along_and undisturbed apart) hafter
    · rcases both.2.present with due | writes | present
      · exact absurd due (not_due_at_rest noJobs idle landed)
      · simp [idle, Progress.writes] at writes
      · exact present used lt
    · rintro s a t ⟨h, complete⟩ ⟨hC, hA⟩ hs
      exact ⟨h.step hC hs, complete.move (h.tracked slot) h.grounded h.flight h.up hC hA
        (move_of_step hs)⟩

def repointedRun : List Action :=
  [.take 0, .query, .read, .statement 5, .statement 5, .statement 5, .read, .statement 5,
    .statement 5, .setChannel 0 ⟨"new", [9]⟩, .nodeAnswers true, .dispatch, .returns, .take 0,
    .read, .statement 6, .statement 6, .statement 6]

theorem channels_track_node_repointed :
    ∃ s₁ s, step (init oneChannelNode 2 .empty .empty) .connect = some s₁ ∧
      Runs.run step s₁ repointedRun = some s ∧ ∃ r ∈ s.channels.rows,
        r.slot = some 0 ∧ r.secret = [9] ∧ r.name = "new" := by
  obtain ⟨s₁, h₁⟩ := Option.isSome_iff_exists.mp
    (by decide +kernel : (step (init oneChannelNode 2 .empty .empty) .connect).isSome = true)
  have reached : ((step (init oneChannelNode 2 .empty .empty) .connect).bind fun s₁ =>
      (Runs.run step s₁ repointedRun).map fun s =>
        (s.waiting, s.running, s.inFlight, s.maxChannels, s.node 0)) =
      some ([], none, none, 2, ⟨"new", [9]⟩) := by
    decide +kernel
  have calm : ∀ s₁ ∈ step (init oneChannelNode 2 .empty .empty) .connect,
      Runs.Along step Undisturbed s₁ repointedRun ∧
      Runs.Along step (Apart 0) s₁ repointedRun := by
    decide +kernel
  simp only [h₁, Option.bind_some, Option.map_eq_some_iff, Prod.mk.injEq] at reached
  obtain ⟨s, hs, noJobs, idle, landed, slots, held⟩ := reached
  obtain ⟨undisturbed, apart⟩ := calm s₁ h₁
  obtain ⟨sound, complete⟩ := channels_track_node oneChannelNode 2 .empty .empty [] repointedRun
    _ s₁ s rfl h₁ hs undisturbed noJobs idle landed
  obtain ⟨r, hr, hslot⟩ := complete 0 (by rw [slots]; decide) (by rw [held]; decide) apart
  obtain ⟨secret, name, _⟩ := sound 0 r hr hslot
  rw [held] at secret name
  exact ⟨s₁, s, h₁, hs, r, hr, hslot, secret, name⟩

def twinNode : ℕ → SlotInfo
  | 0 | 1 => ⟨"ops", [7]⟩
  | _ => ⟨"", [0]⟩

def twinRun : List Action :=
  [.connect, .take 0, .query, .read, .statement 5, .statement 5, .statement 5, .read,
    .statement 5, .statement 5, .statement 5, .statement 5]

/-- At rest after a refresh, a slot in use has no row when its secret is in a later
slot too; and a slot that a SET_CHANNEL in the command slot has changed still has
the old one. -/
theorem channels_lag_node :
    (¬ ∀ s, Runs.run step (init twinNode 2 .empty .empty) twinRun = some s →
      s.waiting = [] → s.running = none → ∀ slot < s.maxChannels,
      (s.node slot).isEmpty = false → ∃ r ∈ s.channels.rows, r.slot = some slot) ∧
    ¬ ∀ s, Runs.run step (init oneChannelNode 2 .empty .empty)
        (refreshRun ++ [.setChannel 0 ⟨"new", [9]⟩, .nodeAnswers true]) = some s →
      s.waiting = [] → s.running = none → ∀ slot, ∀ r ∈ s.channels.rows,
      r.slot = some slot → r.secret = (s.node slot).channelSecret := by
  refine ⟨?_, ?_⟩
  · intro supposed
    have got : (Runs.run step (init twinNode 2 .empty .empty) twinRun).map (fun s =>
        (s.waiting, s.running, s.maxChannels, (s.node 0).isEmpty,
          decide (s.channels.rows.map (·.slot) = [some 1]))) =
        some ([], none, 2, false, true) := by
      decide +kernel
    simp only [Option.map_eq_some_iff, Prod.mk.injEq, decide_eq_true_eq] at got
    obtain ⟨s, hs, noJobs, idle, slots, held, rows⟩ := got
    obtain ⟨r, hr, hslot⟩ := supposed s hs noJobs idle 0 (by rw [slots]; decide) held
    have mem : some 0 ∈ s.channels.rows.map (·.slot) := List.mem_map.mpr ⟨r, hr, hslot⟩
    simp [rows] at mem
  · intro supposed
    have got : (Runs.run step (init oneChannelNode 2 .empty .empty)
        (refreshRun ++ [.setChannel 0 ⟨"new", [9]⟩, .nodeAnswers true])).map (fun s =>
          (s.waiting, s.running, s.node 0, s.channels.rows)) =
        some ([], none, ⟨"new", [9]⟩, [⟨1, [7], "ops", some 0, 5, 5⟩]) := by
      decide +kernel
    simp only [Option.map_eq_some_iff, Prod.mk.injEq] at got
    obtain ⟨s, hs, noJobs, idle, held, rows⟩ := got
    have same := supposed s hs noJobs idle 0 ⟨1, [7], "ops", some 0, 5, 5⟩ (by simp [rows]) rfl
    rw [held] at same
    exact absurd same (by decide)

end MeshwardenDaemon.ChannelTracker
